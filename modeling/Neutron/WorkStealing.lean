import Mathlib.Data.Fintype.BigOperators
import Neutron.AtomicQueue
import Neutron.Execution

/-!
# Work stealing between lock-free rings

Every worker owns one ring and runs one operation at a time, one atomic load, store or
compare-exchange a step. A claimer reads both indices and the slots before its
compare-exchange, so what it holds is a snapshot that may be torn or stale; the invariant
says what such a snapshot is worth as long as the head has not moved.
-/

namespace Neutron

open Execution

/-- The operations that claim ids from the head of a ring. -/
inductive ClaimKind where
  | pop
  | steal
  | half
  deriving DecidableEq

/-- Where a worker stands inside an operation, with its local variables. `rest` is what
`steal_into` does after a `push` onto its own ring: the ids still to push and the one to
return. `seen` counts the ids claimed when the head was loaded. -/
inductive Frame (n : ℕ) where
  | idle
  | swapNext (gid : Int)
  | loadNext
  | casNext (next : Int)
  | loadHead (kind : ClaimKind) (victim : Fin n)
  | loadTail (kind : ClaimKind) (victim : Fin n) (head seen : ℕ)
  | read (kind : ClaimKind) (victim : Fin n) (head seen take : ℕ) (batch : List Int)
  | deliver (rest : List Int) (last : Int)
  | pushTail (gid : Int) (rest : Option (List Int × Int))
  | pushHead (gid : Int) (rest : Option (List Int × Int)) (tail : ℕ)
  | pushSlot (gid : Int) (rest : Option (List Int × Int)) (tail : ℕ)
  | pushPublish (gid : Int) (rest : Option (List Int × Int)) (tail : ℕ)

/-- The ids a thief has claimed and not yet put anywhere. -/
def Frame.hand {n : ℕ} : Frame n → List Int
  | .deliver rest last => rest ++ [last]
  | .pushTail gid (some (rest, last)) => gid :: (rest ++ [last])
  | .pushHead gid (some (rest, last)) _ => gid :: (rest ++ [last])
  | .pushSlot gid (some (rest, last)) _ => gid :: (rest ++ [last])
  | .pushPublish gid (some (rest, last)) _ => gid :: (rest ++ [last])
  | _ => []

/-- The rings and the workers, with the history of the ids: those pushed by a caller, those
returned to one, and those a thief passed to the shared queue. -/
structure StealPool (n : ℕ) where
  queue : Fin n → AtomicQueue
  frame : Fin n → Frame n
  entered : List Int
  returned : List Int
  spilled : List Int

inductive QueueOp (n : ℕ) where
  | push (gid : Int)
  | pushNext (gid : Int)
  | pop
  | takeHalf
  | stealFrom (victim : Fin n)

inductive StealAct (n : ℕ) where
  | call (w : Fin n) (op : QueueOp n)
  | run (w : Fin n)

namespace StealPool

variable {n : ℕ}

def start (n : ℕ) : StealPool n := ⟨fun _ => .new, fun _ => .idle, [], [], []⟩

variable (p : StealPool n)

def setFrame (w : Fin n) (f : Frame n) : StealPool n := { p with frame := Function.update p.frame w f }

def setQueue (w : Fin n) (q : AtomicQueue) : StealPool n := { p with queue := Function.update p.queue w q }

def enter (ids : List Int) : StealPool n := { p with entered := p.entered ++ ids }

def giveBack (ids : List Int) : StealPool n := { p with returned := p.returned ++ ids }

def spill (ids : List Int) : StealPool n := { p with spilled := p.spilled ++ ids }

def firstFrame (w : Fin n) : QueueOp n → Frame n
  | .push gid => .pushTail gid none
  | .pushNext gid => .swapNext gid
  | .pop => .loadNext
  | .takeHalf => .loadHead .half w
  | .stealFrom victim => .loadHead .steal victim

/-- How the snapshot of the indices decides what to read. -/
def decideClaim (kind : ClaimKind) (victim : Fin n) (head seen tail : ℕ) : Frame n :=
  let available := wrappingSub tail head
  match kind with
  | .pop => if head = tail then .idle else .read .pop victim head seen 1 []
  | .half =>
      if available = 0 ∨ available > ringCapacity then .idle
      else .read .half victim head seen (available - available / 2) []
  | .steal =>
      if available = 0 then .idle
      else if available > ringCapacity then .loadHead .steal victim
      else .read .steal victim head seen (available - available / 2) []

/-- What a claimer does with the batch its compare-exchange has claimed. -/
def keepBatch (w : Fin n) (kind : ClaimKind) (batch : List Int) : StealPool n :=
  match kind with
  | .steal =>
      match batch.getLast? with
      | some last => p.setFrame w (.deliver batch.dropLast last)
      | none => p.setFrame w .idle
  | _ => (p.giveBack batch).setFrame w .idle

/-- The compare-exchange on the head of the victim. -/
def casHead (w : Fin n) (kind : ClaimKind) (victim : Fin n) (head : ℕ) (batch : List Int) : StealPool n :=
  if (p.queue victim).head = head then
    (p.setQueue victim ((p.queue victim).claim head batch)).keepBatch w kind batch
  else p.setFrame w (.loadHead kind victim)

/-- A full ring: the caller is told, or a thief passes the id to the shared queue. -/
def pushFull (w : Fin n) (gid : Int) : Option (List Int × Int) → StealPool n
  | none => p.setFrame w .idle
  | some (rest, last) => (p.spill [gid]).setFrame w (.deliver rest last)

/-- The id is published. -/
def pushDone (w : Fin n) (gid : Int) : Option (List Int × Int) → StealPool n
  | none => (p.enter [gid]).setFrame w .idle
  | some (rest, last) => p.setFrame w (.deliver rest last)

/-- The next atomic operation of the worker. -/
def run (w : Fin n) : StealPool n :=
  let q := p.queue w
  match p.frame w with
  | .idle => p
  | .swapNext gid => (((p.setQueue w { q with next := gid }).enter [gid]).giveBack q.slot).setFrame w .idle
  | .loadNext => p.setFrame w (if q.next = null then .loadHead .pop w else .casNext q.next)
  | .casNext next =>
      if q.next = next then ((p.setQueue w { q with next := null }).giveBack [next]).setFrame w .idle
      else p.setFrame w (.loadHead .pop w)
  | .loadHead kind victim =>
      p.setFrame w (.loadTail kind victim (p.queue victim).head (p.queue victim).claimed)
  | .loadTail kind victim head seen =>
      p.setFrame w (decideClaim kind victim head seen (p.queue victim).tail)
  | .read kind victim head seen take batch =>
      if batch.length < take then
        p.setFrame w (.read kind victim head seen take
          (batch ++ [(p.queue victim).ring (ringSlot (wrappingAdd head batch.length))]))
      else p.casHead w kind victim head batch
  | .deliver [] last => (p.giveBack [last]).setFrame w .idle
  | .deliver (gid :: rest) last => p.setFrame w (.pushTail gid (some (rest, last)))
  | .pushTail gid rest => p.setFrame w (.pushHead gid rest q.tail)
  | .pushHead gid rest tail =>
      if wrappingSub tail q.head ≥ ringCapacity then p.pushFull w gid rest
      else p.setFrame w (.pushSlot gid rest tail)
  | .pushSlot gid rest tail => (p.setQueue w (q.store tail gid)).setFrame w (.pushPublish gid rest tail)
  | .pushPublish gid rest tail => (p.setQueue w (q.publish tail gid)).pushDone w gid rest

def step : StealAct n → StealPool n
  | .call w op =>
      match p.frame w with
      | .idle => p.setFrame w (firstFrame w op)
      | _ => p
  | .run w => p.run w

/-- Fewer than `2 ^ 32 - 256` ids are claimed between a load of the head and the
compare-exchange that uses it. -/
def TimelyFrame (queue : Fin n → AtomicQueue) : Frame n → Prop
  | .read _ victim _ seen _ _ => (queue victim).claimed - seen < indexRange - ringCapacity
  | _ => True

/-- Ids are goroutine ids, never `NULL`, and no claimer is overtaken by a whole turn of the
head. -/
def Timely (p : StealPool n) : StealAct n → Prop
  | .call _ (.push gid) | .call _ (.pushNext gid) => gid ≠ null
  | .call _ _ => True
  | .run w => TimelyFrame p.queue (p.frame w)

instance TimelyFrame.decidable (queue : Fin n → AtomicQueue) : ∀ f, Decidable (TimelyFrame queue f)
  | .read _ victim _ seen _ _ =>
      inferInstanceAs (Decidable ((queue victim).claimed - seen < indexRange - ringCapacity))
  | .idle | .swapNext _ | .loadNext | .casNext _ | .loadHead _ _ | .loadTail _ _ _ _ | .deliver _ _
  | .pushTail _ _ | .pushHead _ _ _ | .pushSlot _ _ _ | .pushPublish _ _ _ => .isTrue trivial

instance Timely.decidable (p : StealPool n) : ∀ a, Decidable (p.Timely a)
  | .call _ (.push gid) | .call _ (.pushNext gid) => inferInstanceAs (Decidable (gid ≠ null))
  | .call _ .pop | .call _ .takeHalf | .call _ (.stealFrom _) => .isTrue trivial
  | .run w => inferInstanceAs (Decidable (TimelyFrame p.queue (p.frame w)))

/-- The occurrences of an id in one queue: at the ring indices from `head` up to `tail`, and
in the LIFO cell. -/
def queued (q : AtomicQueue) (x : Int) : ℕ := q.contents.count x + q.slot.count x

/-- The occurrences of an id in all queues, in the hands of thieves, with the callers it was
returned to, and in the shared queue. -/
def held (x : Int) : ℕ :=
  ∑ w, queued (p.queue w) x + ∑ w, (p.frame w).hand.count x + p.returned.count x + p.spilled.count x

/-! ## The invariant -/

/-- What a frame knows about the queues. A claimer's snapshot counts only while the head has
not moved since it was loaded. -/
def FrameSound (queue : Fin n → AtomicQueue) (w : Fin n) : Frame n → Prop
  | .swapNext gid => gid ≠ null
  | .casNext next => next ≠ null
  | .loadTail _ v head seen => head = seen % indexRange ∧ seen ≤ (queue v).claimed
  | .read _ v head seen take batch =>
      head = seen % indexRange ∧ seen ≤ (queue v).claimed ∧ batch.length ≤ take ∧
        ((queue v).claimed = seen → seen + take ≤ (queue v).log.length ∧
          batch = ((queue v).log.drop seen).take batch.length)
  | .pushHead _ _ tail => tail = (queue w).log.length % indexRange
  | .pushSlot _ _ tail =>
      tail = (queue w).log.length % indexRange ∧ (queue w).log.length < (queue w).claimed + ringCapacity
  | .pushPublish gid _ tail =>
      tail = (queue w).log.length % indexRange ∧ (queue w).log.length < (queue w).claimed + ringCapacity ∧
        (queue w).ring (ringSlot (queue w).log.length) = gid
  | _ => True

structure Sound (p : StealPool n) : Prop where
  queues : ∀ w, (p.queue w).Sound
  frames : ∀ w, FrameSound p.queue w (p.frame w)
  balance : ∀ x, p.entered.count x = p.held x

/-- Histories only grow. -/
structure Later (q q' : AtomicQueue) : Prop where
  claimed : q.claimed ≤ q'.claimed
  log : ∃ more, q'.log = q.log ++ more

theorem Later.refl (q : AtomicQueue) : Later q q := ⟨le_rfl, [], (List.append_nil _).symm⟩

/-- A frame stays sound when another worker moves: its own ring is written by nobody else. -/
theorem FrameSound.later {queue queue' : Fin n → AtomicQueue} {w : Fin n} {f : Frame n}
    (h : FrameSound queue w f) (hlater : ∀ v, Later (queue v) (queue' v))
    (hlog : (queue' w).log = (queue w).log) (hring : (queue' w).ring = (queue w).ring) :
    FrameSound queue' w f := by
  have hmono := (hlater w).claimed
  cases f with
  | loadTail kind v head seen => exact ⟨h.1, h.2.trans (hlater v).claimed⟩
  | read kind v head seen take batch =>
    obtain ⟨hhead, hseen, hlen, hbatch⟩ := h
    obtain ⟨hclaimed, more, hmore⟩ := hlater v
    refine ⟨hhead, hseen.trans hclaimed, hlen, fun heq => ?_⟩
    obtain ⟨hle, hb⟩ := hbatch (by omega)
    rw [hmore]
    refine ⟨by rw [List.length_append]; omega, ?_⟩
    rw [List.drop_append_of_le_length (by omega), List.take_append_of_le_length]
    · exact hb
    · rw [List.length_drop]
      omega
  | pushHead gid rest tail =>
    unfold FrameSound at *
    rw [hlog]
    exact h
  | pushSlot gid rest tail =>
    unfold FrameSound at *
    rw [hlog]
    exact ⟨h.1, by omega⟩
  | pushPublish gid rest tail =>
    unfold FrameSound at *
    rw [hlog, hring]
    exact ⟨h.1, by omega, h.2.2⟩
  | _ => exact h

/-- A step of `w` that changes one queue, its own frame and the histories. -/
theorem Sound.advance {p p' : StealPool n} (h : p.Sound) {v w : Fin n} {q : AtomicQueue} {f : Frame n}
    {ins outs passed : List Int} (hqueue : p'.queue = Function.update p.queue v q)
    (hframe : p'.frame = Function.update p.frame w f) (hins : p'.entered = p.entered ++ ins)
    (houts : p'.returned = p.returned ++ outs) (hpassed : p'.spilled = p.spilled ++ passed)
    (hq : q.Sound) (hlater : Later (p.queue v) q)
    (hother : v ≠ w → q.log = (p.queue v).log ∧ q.ring = (p.queue v).ring)
    (hf : FrameSound p'.queue w f)
    (hids : ∀ x, ins.count x + queued (p.queue v) x + (p.frame w).hand.count x =
      queued q x + f.hand.count x + outs.count x + passed.count x) : p'.Sound := by
  have hget (u : Fin n) : u = v ∧ p'.queue u = q ∨ p'.queue u = p.queue u := by
    rw [hqueue]
    by_cases hu : u = v
    · exact .inl ⟨hu, by rw [hu, Function.update_self]⟩
    · exact .inr (Function.update_of_ne hu _ _)
  refine ⟨fun u => ?_, fun u => ?_, fun x => ?_⟩
  · rcases hget u with ⟨-, hu⟩ | hu
    · exact hu ▸ hq
    · exact hu ▸ h.queues u
  · rw [hframe]
    by_cases hu : u = w
    · rw [hu, Function.update_self]
      exact hf
    · rw [Function.update_of_ne hu]
      refine (h.frames u).later (fun v' => ?_) ?_ ?_
      · rcases hget v' with ⟨rfl, hv'⟩ | hv'
        · exact hv' ▸ hlater
        · exact hv' ▸ .refl _
      · rcases hget u with ⟨rfl, hv'⟩ | hv'
        · exact hv' ▸ (hother hu).1
        · rw [hv']
      · rcases hget u with ⟨rfl, hv'⟩ | hv'
        · exact hv' ▸ (hother hu).2
        · rw [hv']
  · have hb := h.balance x
    have hx := hids x
    have hqsum := sum_update_add (fun q => queued q x) p.queue v q
    have hfsum := sum_update_add (fun fr : Frame n => fr.hand.count x) p.frame w f
    unfold held at hb ⊢
    rw [hins, houts, hpassed, hqueue, hframe]
    simp only [List.count_append]
    omega

/-- A step of `w` that reads. -/
theorem Sound.goto {p : StealPool n} (h : p.Sound) {w : Fin n} {f : Frame n} (hf : FrameSound p.queue w f)
    (hhand : (p.frame w).hand = f.hand) : (p.setFrame w f).Sound :=
  h.advance (v := w) (Function.update_eq_self w p.queue).symm rfl (List.append_nil _).symm
    (List.append_nil _).symm (List.append_nil _).symm (h.queues w) (.refl _) (fun hc => absurd rfl hc) hf
    (fun x => by rw [hhand]; simp)

/-! ## One lemma per operation -/

variable {p : StealPool n} {w : Fin n}

theorem queued_next (q : AtomicQueue) (gid x : Int) :
    queued { q with next := gid } x + q.slot.count x
      = queued q x + (if gid = null then [] else [gid]).count x := by
  change q.contents.count x + (if gid = null then [] else [gid]).count x + q.slot.count x
    = q.contents.count x + q.slot.count x + _
  omega

theorem sound_next {q : AtomicQueue} (h : q.Sound) (gid : Int) : { q with next := gid }.Sound :=
  ⟨h.head, h.tail, h.claimed, h.room, h.left, h.ring⟩

theorem Sound.swapNext (h : p.Sound) {gid : Int} (hw : p.frame w = .swapNext gid) : (p.run w).Sound := by
  have hgid : gid ≠ null := by
    have := h.frames w
    rwa [hw] at this
  unfold run
  rw [hw]
  refine h.advance (v := w) (w := w) rfl rfl rfl rfl (List.append_nil _).symm (sound_next (h.queues w) gid)
    ⟨le_rfl, [], (List.append_nil _).symm⟩ (fun hc => absurd rfl hc) trivial (fun x => ?_)
  have hn := queued_next (p.queue w) gid x
  rw [if_neg hgid] at hn
  simp only [hw, Frame.hand, List.count_nil] at hn ⊢
  omega

theorem Sound.casNext (h : p.Sound) {next : Int} (hw : p.frame w = .casNext next) : (p.run w).Sound := by
  have hne : next ≠ null := by
    have := h.frames w
    rwa [hw] at this
  unfold run
  rw [hw]
  dsimp only
  by_cases hcell : (p.queue w).next = next
  · rw [if_pos hcell]
    refine h.advance (v := w) (w := w) rfl rfl (List.append_nil _).symm rfl (List.append_nil _).symm
      (sound_next (h.queues w) null) ⟨le_rfl, [], (List.append_nil _).symm⟩ (fun hc => absurd rfl hc) trivial
      (fun x => ?_)
    have hn := queued_next (p.queue w) null x
    have hslot : (p.queue w).slot = [next] := by rw [AtomicQueue.slot, hcell, if_neg hne]
    rw [if_pos rfl, hslot] at hn
    simp only [hw, Frame.hand, List.count_nil] at hn ⊢
    omega
  · rw [if_neg hcell]
    exact h.goto trivial (by rw [hw]; rfl)

/-- The snapshot of the tail is worth something only if the head is still where it was. -/
theorem frameSound_decideClaim (h : p.Sound) (kind : ClaimKind) (v : Fin n) {head seen : ℕ}
    (hhead : head = seen % indexRange) (hseen : seen ≤ (p.queue v).claimed) :
    FrameSound p.queue w (decideClaim kind v head seen (p.queue v).tail) := by
  have hread (kind' : ClaimKind) (take : ℕ)
      (htake : (p.queue v).claimed = seen → seen + take ≤ (p.queue v).log.length) :
      FrameSound p.queue w (.read kind' v head seen take []) :=
    ⟨hhead, hseen, Nat.zero_le _, fun heq => ⟨htake heq, by simp⟩⟩
  have havailable : (p.queue v).claimed = seen →
      wrappingSub (p.queue v).tail head = (p.queue v).log.length - seen := by
    intro heq
    have := (h.queues v).ringLen
    rw [AtomicQueue.ringLen, (h.queues v).head, heq, ← hhead] at this
    exact this
  unfold decideClaim
  dsimp only
  cases kind with
  | pop =>
    dsimp only
    split_ifs with heq
    · trivial
    · refine hread _ _ (fun hc => ?_)
      have hle := (h.queues v).claimed
      have hne : (p.queue v).log.length ≠ seen := by
        intro hlen
        exact heq (hhead.trans (by rw [(h.queues v).tail, hlen]))
      omega
  | half =>
    dsimp only
    split_ifs with hc
    · trivial
    · exact hread _ _ (fun heq => by have := havailable heq; omega)
  | steal =>
    dsimp only
    split_ifs
    · trivial
    · trivial
    · exact hread _ _ (fun heq => by have := havailable heq; omega)

/-- The compare-exchange can only succeed on the head that was loaded. -/
theorem claimed_eq_seen {q : AtomicQueue} {head seen : ℕ} (hq : q.Sound) (hhead : head = seen % indexRange)
    (hseen : seen ≤ q.claimed) (htimely : q.claimed - seen < indexRange - ringCapacity)
    (hcas : q.head = head) : q.claimed = seen := by
  have hmod : q.claimed % indexRange = seen % indexRange := by rw [← hq.head, hcas, hhead]
  unfold indexRange at hmod htimely
  omega

theorem Sound.casHead (h : p.Sound) {kind : ClaimKind} {v : Fin n} {head seen take : ℕ} {batch : List Int}
    (hw : p.frame w = .read kind v head seen take batch) (hfull : ¬batch.length < take)
    (htimely : (p.queue v).claimed - seen < indexRange - ringCapacity) :
    (p.casHead w kind v head batch).Sound := by
  have hframe := h.frames w
  rw [hw] at hframe
  obtain ⟨hhead, hseen, hlen, hsnapshot⟩ := hframe
  unfold StealPool.casHead
  by_cases hcas : (p.queue v).head = head
  · rw [if_pos hcas]
    have heq := claimed_eq_seen (h.queues v) hhead hseen htimely hcas
    obtain ⟨hle, hbatch⟩ := hsnapshot heq
    have hle' : (p.queue v).claimed + batch.length ≤ (p.queue v).log.length := by omega
    rw [← heq] at hbatch
    have hsound := (h.queues v).claim hle' hbatch
    have hcontents := (h.queues v).contents_claim hle' hbatch
    rw [hcas] at hsound hcontents
    have hlater : Later (p.queue v) ((p.queue v).claim head batch) :=
      ⟨Nat.le_add_right _ _, [], (List.append_nil _).symm⟩
    have hids (x : Int) : queued (p.queue v) x = queued ((p.queue v).claim head batch) x + batch.count x := by
      unfold queued
      rw [hcontents, List.count_append]
      change _ + (p.queue v).slot.count x = _ + (p.queue v).slot.count x + _
      omega
    unfold keepBatch
    have hback : (((p.setQueue v ((p.queue v).claim head batch)).giveBack batch).setFrame w .idle).Sound := by
      refine h.advance (v := v) (w := w) rfl rfl (List.append_nil _).symm rfl (List.append_nil _).symm hsound
        hlater (fun _ => ⟨rfl, rfl⟩) trivial (fun x => ?_)
      have := hids x
      simp only [hw, Frame.hand, List.count_nil]
      omega
    cases kind with
    | pop => exact hback
    | half => exact hback
    | steal =>
      dsimp only
      cases hlast : batch.getLast? with
      | none =>
        have hnil := List.getLast?_eq_none_iff.mp hlast
        refine h.advance (v := v) (w := w) rfl rfl (List.append_nil _).symm (List.append_nil _).symm
          (List.append_nil _).symm hsound hlater (fun _ => ⟨rfl, rfl⟩) trivial (fun x => ?_)
        have := hids x
        rw [hnil] at this ⊢
        simp only [hw, Frame.hand, List.count_nil] at this ⊢
        omega
      | some last =>
        refine h.advance (v := v) (w := w) rfl rfl (List.append_nil _).symm (List.append_nil _).symm
          (List.append_nil _).symm hsound hlater (fun _ => ⟨rfl, rfl⟩) trivial (fun x => ?_)
        have := hids x
        simp only [hw, Frame.hand, List.count_nil]
        rw [List.dropLast_append_getLast? last hlast]
        omega
  · rw [if_neg hcas]
    exact h.goto trivial (by rw [hw]; rfl)

theorem Sound.read (h : p.Sound) {kind : ClaimKind} {v : Fin n} {head seen take : ℕ} {batch : List Int}
    (hw : p.frame w = .read kind v head seen take batch)
    (htimely : (p.queue v).claimed - seen < indexRange - ringCapacity) : (p.run w).Sound := by
  have hframe := h.frames w
  rw [hw] at hframe
  obtain ⟨hhead, hseen, hlen, hsnapshot⟩ := hframe
  unfold run
  rw [hw]
  dsimp only
  split_ifs with hmore
  · refine h.goto ⟨hhead, hseen, by rw [List.length_append]; exact hmore, fun heq => ?_⟩ (by rw [hw]; rfl)
    obtain ⟨hle, hbatch⟩ := hsnapshot heq
    refine ⟨hle, ?_⟩
    have hlt : seen + batch.length < (p.queue v).log.length := by omega
    have hslot : (p.queue v).ring (ringSlot (wrappingAdd head batch.length))
        = (p.queue v).log[seen + batch.length] := by
      rw [hhead, AtomicQueue.wrappingAdd_mod, AtomicQueue.ringSlot_mod]
      exact (h.queues v).ring _ hlt (by omega)
    have hdrop : batch.length < ((p.queue v).log.drop seen).length := by
      rw [List.length_drop]
      omega
    rw [List.length_append, List.length_singleton, ← List.take_concat_get' _ _ hdrop, ← hbatch, hslot,
      List.getElem_drop]
  · exact h.casHead hw hmore htimely

theorem Sound.deliver (h : p.Sound) {rest : List Int} {last : Int} (hw : p.frame w = .deliver rest last) :
    (p.run w).Sound := by
  unfold run
  rw [hw]
  cases rest with
  | nil =>
    refine h.advance (v := w) (w := w) (Function.update_eq_self w p.queue).symm rfl (List.append_nil _).symm rfl
      (List.append_nil _).symm (h.queues w) (.refl _) (fun hc => absurd rfl hc) trivial (fun x => ?_)
    simp only [hw, Frame.hand, List.count_nil, List.nil_append]
    omega
  | cons gid rest => exact h.goto trivial (by rw [hw]; rfl)

variable {rest : Option (List Int × Int)}

theorem Sound.pushHead (h : p.Sound) {gid : Int} {tail : ℕ}
    (hw : p.frame w = .pushHead gid rest tail) : (p.run w).Sound := by
  have htail := h.frames w
  rw [hw] at htail
  unfold run
  rw [hw]
  dsimp only
  split_ifs with hroom
  · cases rest with
    | none => exact h.goto trivial (by rw [hw]; rfl)
    | some r =>
      refine h.advance (v := w) (w := w) (Function.update_eq_self w p.queue).symm rfl (List.append_nil _).symm
        (List.append_nil _).symm rfl (h.queues w) (.refl _) (fun hc => absurd rfl hc) trivial (fun x => ?_)
      simp only [hw, Frame.hand, List.count_nil, List.count_cons]
      omega
  · refine h.goto ⟨htail, ?_⟩ (by rw [hw]; cases rest <;> rfl)
    have hlen := (h.queues w).ringLen
    rw [AtomicQueue.ringLen, (h.queues w).tail, ← htail] at hlen
    omega

theorem Sound.pushSlot (h : p.Sound) {gid : Int} {tail : ℕ}
    (hw : p.frame w = .pushSlot gid rest tail) : (p.run w).Sound := by
  have hframe := h.frames w
  rw [hw] at hframe
  obtain ⟨rfl, hroom⟩ := hframe
  unfold run
  rw [hw]
  refine h.advance (v := w) (w := w) rfl rfl (List.append_nil _).symm (List.append_nil _).symm
    (List.append_nil _).symm ((h.queues w).store hroom gid) ⟨le_rfl, [], (List.append_nil _).symm⟩
    (fun hc => absurd rfl hc) ?_ (fun x => ?_)
  · have hself : ((p.setQueue w ((p.queue w).store ((p.queue w).log.length % indexRange) gid)).queue w)
        = (p.queue w).store ((p.queue w).log.length % indexRange) gid := Function.update_self _ _ _
    change _ ∧ _ ∧ _
    dsimp only [StealPool.setFrame]
    rw [hself]
    refine ⟨rfl, hroom, ?_⟩
    rw [← AtomicQueue.ringSlot_mod]
    exact Function.update_self _ _ _
  · have hq : queued ((p.queue w).store ((p.queue w).log.length % indexRange) gid) x = queued (p.queue w) x := by
      unfold queued
      rw [(h.queues w).contents_store hroom gid]
      rfl
    rw [hq, hw]
    cases rest <;> simp [Frame.hand]

theorem Sound.pushPublish (h : p.Sound) {gid : Int} {tail : ℕ}
    (hw : p.frame w = .pushPublish gid rest tail) : (p.run w).Sound := by
  have hframe := h.frames w
  rw [hw] at hframe
  obtain ⟨rfl, hroom, hstored⟩ := hframe
  unfold run
  rw [hw]
  have hsound := (h.queues w).publish hroom hstored
  have hlater : Later (p.queue w) ((p.queue w).publish ((p.queue w).log.length % indexRange) gid) :=
    ⟨le_rfl, [gid], rfl⟩
  have hids (x : Int) : queued ((p.queue w).publish ((p.queue w).log.length % indexRange) gid) x
      = queued (p.queue w) x + [gid].count x := by
    unfold queued
    rw [(h.queues w).contents_publish hroom hstored, List.count_append]
    change _ + (p.queue w).slot.count x = _ + (p.queue w).slot.count x + _
    omega
  cases rest with
  | none =>
    refine h.advance (v := w) (w := w) rfl rfl rfl (List.append_nil _).symm (List.append_nil _).symm hsound hlater
      (fun hc => absurd rfl hc) trivial (fun x => ?_)
    have := hids x
    simp only [hw, Frame.hand, List.count_nil]
    omega
  | some r =>
    refine h.advance (v := w) (w := w) rfl rfl (List.append_nil _).symm (List.append_nil _).symm
      (List.append_nil _).symm hsound hlater (fun hc => absurd rfl hc) trivial (fun x => ?_)
    have := hids x
    simp only [hw, Frame.hand, List.count_nil, List.count_cons] at this ⊢
    omega

theorem Sound.run (h : p.Sound) (w : Fin n) (htimely : p.Timely (.run w)) : (p.run w).Sound := by
  cases hw : p.frame w with
  | idle =>
    unfold StealPool.run
    rw [hw]
    exact h
  | swapNext gid => exact h.swapNext hw
  | loadNext =>
    unfold StealPool.run
    rw [hw]
    refine h.goto ?_ (by rw [hw]; split_ifs <;> rfl)
    split_ifs with hnull
    · trivial
    · exact hnull
  | casNext next => exact h.casNext hw
  | loadHead kind v =>
    unfold StealPool.run
    rw [hw]
    exact h.goto ⟨(h.queues v).head, le_rfl⟩ (by rw [hw]; rfl)
  | loadTail kind v head seen =>
    have hframe := h.frames w
    rw [hw] at hframe
    unfold StealPool.run
    rw [hw]
    refine h.goto (frameSound_decideClaim h kind v hframe.1 hframe.2) ?_
    rw [hw]
    unfold decideClaim
    cases kind <;> dsimp only <;> split_ifs <;> rfl
  | read kind v head seen take batch =>
    simp only [Timely, hw] at htimely
    exact h.read hw htimely
  | deliver rest last => exact h.deliver hw
  | pushTail gid rest =>
    unfold StealPool.run
    rw [hw]
    exact h.goto (h.queues w).tail (by rw [hw]; cases rest <;> rfl)
  | pushHead gid rest tail => exact h.pushHead hw
  | pushSlot gid rest tail => exact h.pushSlot hw
  | pushPublish gid rest tail => exact h.pushPublish hw

theorem Sound.step (h : p.Sound) {a : StealAct n} (ha : p.Timely a) : (p.step a).Sound := by
  cases a with
  | run w => exact h.run w ha
  | call w op =>
    simp only [StealPool.step]
    split
    · rename_i hw
      refine h.goto ?_ (by rw [hw]; cases op <;> rfl)
      cases op with
      | pushNext gid => exact ha
      | _ => trivial
    · exact h

theorem sound_start : (start n).Sound := by
  refine ⟨fun _ => AtomicQueue.sound_new, fun _ => trivial, fun x => ?_⟩
  simp [held, start, queued, AtomicQueue.new, AtomicQueue.contents, AtomicQueue.slot, AtomicQueue.ringLen,
    wrappingSub, Frame.hand]

end StealPool

/-- In every interleaving every id that was pushed is in one place: at one index of one ring,
in one LIFO cell, in the hand of one thief, with the caller it was returned to, or passed to
the shared queue. No ring holds more than its capacity, and ids leave a ring in the order
in which they were pushed. -/
theorem run_queues_conserve_ids {n : ℕ} (acts : List (StealAct n))
    (hrun : Allowed StealPool.step StealPool.Timely (.start n) acts) :
    let p := execute StealPool.step (.start n) acts
    (∀ x, p.entered.count x = p.held x) ∧
      ∀ w, (p.queue w).ringLen ≤ ringCapacity ∧ (p.queue w).left ++ (p.queue w).contents = (p.queue w).log := by
  intro p
  have h : p.Sound := hrun.invariant (fun _ _ h ha => h.step ha) StealPool.sound_start
  refine ⟨h.balance, fun w => ⟨?_, (h.queues w).left_append_contents⟩⟩
  have hroom := (h.queues w).room
  rw [(h.queues w).ringLen]
  omega

/-- Two pushes on one ring and a steal that has claimed the older id. -/
def midSteal : List (StealAct 2) :=
  [.call 0 (.push 1), .run 0, .run 0, .run 0, .run 0, .call 0 (.push 2), .run 0, .run 0, .run 0, .run 0,
    .call 1 (.stealFrom 0), .run 1, .run 1, .run 1, .run 1]

theorem run_queues_conserve_ids_of_steal :
    let p := execute StealPool.step (.start 2) midSteal
    (∀ x, p.entered.count x = p.held x) ∧
      ∀ w, (p.queue w).ringLen ≤ ringCapacity ∧ (p.queue w).left ++ (p.queue w).contents = (p.queue w).log :=
  run_queues_conserve_ids midSteal (by decide)

/-- Between its compare-exchange and its return a steal is the only place of what it claimed. -/
theorem stolen_id_is_in_transit :
    ¬ ∀ acts : List (StealAct 2), Allowed StealPool.step StealPool.Timely (.start 2) acts → ∀ x,
      (execute StealPool.step (.start 2) acts).entered.count x =
        ∑ w, StealPool.queued ((execute StealPool.step (.start 2) acts).queue w) x
          + (execute StealPool.step (.start 2) acts).returned.count x := by
  intro h
  have hone := h midSteal (by decide) 1
  exact absurd hone (by decide)

end Neutron
