import Mathlib.Data.List.Basic
import Neutron.RunQueue

/-!
# The lock-free ring

`RunQueue` as its atomic cells: two wrapping 32-bit indices, the ring they index modulo its
capacity, and the LIFO cell. `log`, `claimed` and `left` record the history of the ring: the
ids published at its tail, how many of them have been claimed at its head, and the ids the
claimers took away, as they read them.
-/

namespace Neutron

/-- The range of a 32-bit index. -/
def indexRange : ℕ := 2 ^ 32

def wrappingAdd (a b : ℕ) : ℕ := (a + b) % indexRange

def wrappingSub (a b : ℕ) : ℕ := (a + (indexRange - b)) % indexRange

/-- The position of an index in the ring. -/
def ringSlot (i : ℕ) : ℕ := i % ringCapacity

structure AtomicQueue where
  head : ℕ
  tail : ℕ
  ring : ℕ → Int
  next : Int
  log : List Int
  claimed : ℕ
  left : List Int

namespace AtomicQueue

def new : AtomicQueue := ⟨0, 0, fun _ => null, null, [], 0, []⟩

variable (q : AtomicQueue)

def ringLen : ℕ := wrappingSub q.tail q.head

/-- The ids at the indices from `head` up to `tail`. -/
def contents : List Int :=
  (List.range q.ringLen).map (fun i => q.ring (ringSlot (wrappingAdd q.head i)))

def slot : List Int := if q.next = null then [] else [q.next]

/-- The relaxed store of `push` into the slot of its tail. -/
def store (tail : ℕ) (gid : Int) : AtomicQueue :=
  { q with ring := Function.update q.ring (ringSlot tail) gid }

/-- The release store of `push` that publishes the slot. -/
def publish (tail : ℕ) (gid : Int) : AtomicQueue :=
  { q with tail := wrappingAdd tail 1, log := q.log ++ [gid] }

/-- A compare-exchange on `head` that succeeded with what the claimer had read. -/
def claim (head : ℕ) (batch : List Int) : AtomicQueue :=
  { q with
    head := wrappingAdd head batch.length
    claimed := q.claimed + batch.length
    left := q.left ++ batch }

/-- The cells say what the history says. -/
structure Sound (q : AtomicQueue) : Prop where
  head : q.head = q.claimed % indexRange
  tail : q.tail = q.log.length % indexRange
  claimed : q.claimed ≤ q.log.length
  room : q.log.length ≤ q.claimed + ringCapacity
  left : q.left = q.log.take q.claimed
  ring : ∀ i (hi : i < q.log.length), q.claimed ≤ i → q.ring (ringSlot i) = q.log[i]

variable {q}

theorem wrappingSub_mod {a b : ℕ} (hle : b ≤ a) (hlt : a - b < indexRange) :
    wrappingSub (a % indexRange) (b % indexRange) = a - b := by
  unfold wrappingSub indexRange at *
  omega

theorem wrappingAdd_mod (a b : ℕ) : wrappingAdd (a % indexRange) b = (a + b) % indexRange :=
  Nat.mod_add_mod a indexRange b

theorem ringSlot_mod (a : ℕ) : ringSlot (a % indexRange) = ringSlot a := by
  unfold ringSlot
  exact Nat.mod_mod_of_dvd a (by decide)

theorem Sound.ringLen (h : q.Sound) : q.ringLen = q.log.length - q.claimed := by
  have hroom := h.room
  have hlt : q.log.length - q.claimed < indexRange := by
    unfold ringCapacity at hroom
    unfold indexRange
    omega
  rw [AtomicQueue.ringLen, h.head, h.tail, wrappingSub_mod h.claimed hlt]

theorem Sound.contents (h : q.Sound) : q.contents = q.log.drop q.claimed := by
  refine List.ext_getElem (by simp [AtomicQueue.contents, h.ringLen]) (fun i hi hi' => ?_)
  simp only [AtomicQueue.contents, List.getElem_map, List.getElem_range, List.getElem_drop]
  rw [h.head, wrappingAdd_mod, ringSlot_mod]
  rw [List.length_drop] at hi'
  exact h.ring _ (by omega) (Nat.le_add_right _ _)

theorem sound_new : new.Sound :=
  ⟨rfl, rfl, Nat.zero_le _, Nat.zero_le _, rfl, fun i hi => absurd hi (Nat.not_lt_zero i)⟩

/-- What is left of the ring and what has left it are the ids in the order of their pushes. -/
theorem Sound.left_append_contents (h : q.Sound) : q.left ++ q.contents = q.log := by
  rw [h.left, h.contents, List.take_append_drop]

/-! ## The owner's side -/

/-- A store into the free slot of the tail is invisible until it is published. -/
theorem Sound.store (h : q.Sound) (hroom : q.log.length < q.claimed + ringCapacity) (gid : Int) :
    (q.store (q.log.length % indexRange) gid).Sound := by
  refine ⟨h.head, h.tail, h.claimed, h.room, h.left, fun i hi hle => ?_⟩
  have hne : ringSlot i ≠ ringSlot (q.log.length % indexRange) := by
    rw [ringSlot_mod]
    unfold ringSlot ringCapacity at *
    change i < q.log.length at hi
    change q.claimed ≤ i at hle
    omega
  exact (Function.update_of_ne hne gid q.ring).trans (h.ring i hi hle)

theorem Sound.publish (h : q.Sound) {gid : Int} (hroom : q.log.length < q.claimed + ringCapacity)
    (hstored : q.ring (ringSlot q.log.length) = gid) :
    (q.publish (q.log.length % indexRange) gid).Sound := by
  have hlen : (q.log ++ [gid]).length = q.log.length + 1 := by simp
  refine ⟨h.head, ?_, ?_, ?_, ?_, fun i hi hle => ?_⟩
  · exact (wrappingAdd_mod _ _).trans (by rw [← hlen]; rfl)
  · exact h.claimed.trans (by simp [AtomicQueue.publish])
  · change (q.log ++ [gid]).length ≤ _
    rw [hlen]
    exact hroom
  · change q.left = (q.log ++ [gid]).take q.claimed
    rw [List.take_append_of_le_length h.claimed, h.left]
  · change i < (q.log ++ [gid]).length at hi
    change q.ring (ringSlot i) = (q.log ++ [gid])[i]
    by_cases hlast : i < q.log.length
    · rw [List.getElem_append_left hlast]
      exact h.ring i hlast hle
    · obtain rfl : i = q.log.length := by omega
      rw [hstored]
      simp

/-! ## The claimers' side -/

/-- A successful claim of what stands at the head of the ring. -/
theorem Sound.claim (h : q.Sound) {batch : List Int}
    (hlen : q.claimed + batch.length ≤ q.log.length)
    (hbatch : batch = (q.log.drop q.claimed).take batch.length) : (q.claim q.head batch).Sound := by
  refine ⟨?_, h.tail, hlen, ?_, ?_, fun i hi hle => ?_⟩
  · exact (congrArg (wrappingAdd · batch.length) h.head).trans (wrappingAdd_mod _ _)
  · have := h.room
    change q.log.length ≤ q.claimed + batch.length + ringCapacity
    omega
  · change q.left ++ batch = q.log.take (q.claimed + batch.length)
    rw [List.take_add, ← hbatch, h.left]
  · change q.claimed + batch.length ≤ i at hle
    exact h.ring i hi (by omega)

theorem Sound.contents_claim (h : q.Sound) {batch : List Int}
    (hlen : q.claimed + batch.length ≤ q.log.length)
    (hbatch : batch = (q.log.drop q.claimed).take batch.length) :
    q.contents = batch ++ (q.claim q.head batch).contents := by
  rw [h.contents, (h.claim hlen hbatch).contents]
  change _ = batch ++ q.log.drop (q.claimed + batch.length)
  nth_rewrite 1 [← List.take_append_drop batch.length (q.log.drop q.claimed)]
  rw [← hbatch, List.drop_drop]

theorem Sound.contents_publish (h : q.Sound) {gid : Int}
    (hroom : q.log.length < q.claimed + ringCapacity)
    (hstored : q.ring (ringSlot q.log.length) = gid) :
    (q.publish (q.log.length % indexRange) gid).contents = q.contents ++ [gid] := by
  rw [h.contents, (h.publish hroom hstored).contents]
  change (q.log ++ [gid]).drop q.claimed = _
  rw [List.drop_append_of_le_length h.claimed]

theorem Sound.contents_store (h : q.Sound) (hroom : q.log.length < q.claimed + ringCapacity) (gid : Int) :
    (q.store (q.log.length % indexRange) gid).contents = q.contents := by
  rw [h.contents, (h.store hroom gid).contents]
  rfl

end AtomicQueue
end Neutron
