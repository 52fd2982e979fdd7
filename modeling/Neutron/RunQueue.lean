import Neutron.SchedulerCore

/-!
# Worker run queues

A bounded ring of goroutine ids plus the single LIFO slot, in the sequential view
each operation has of it once its compare-exchange has succeeded.
-/

namespace Neutron

/-- The ring capacity of a run queue. -/
def ringCapacity : ℕ := 256

structure RunQueue where
  next : Int
  ring : List Int
  deriving Repr, DecidableEq

namespace RunQueue

def empty : RunQueue := ⟨null, []⟩

variable (q : RunQueue)

def pushNext (gid : Int) : RunQueue × Option Int :=
  ({ q with next := gid }, if q.next = null then none else some q.next)

def push (gid : Int) : RunQueue × Bool :=
  if q.ring.length < ringCapacity then ({ q with ring := q.ring ++ [gid] }, true) else (q, false)

def pop : RunQueue × Option Int :=
  if q.next ≠ null then ({ q with next := null }, some q.next) else
    match q.ring with
    | [] => (q, none)
    | gid :: rest => ({ q with ring := rest }, some gid)

def takeHalf : RunQueue × List Int :=
  let take := q.ring.length - q.ring.length / 2
  ({ q with ring := q.ring.drop take }, q.ring.take take)

/-- The victim's side of a steal: half of the ring, the last id to run at once. -/
def grab : RunQueue × List Int × Option Int :=
  let take := q.ring.length - q.ring.length / 2
  ({ q with ring := q.ring.drop take }, (q.ring.take take).dropLast, (q.ring.take take).getLast?)

/-- The content of the LIFO slot. -/
def slot : List Int := if q.next = null then [] else [q.next]

/-- Occurrences of a goroutine in the slot and the ring. -/
def count (x : Int) : ℕ := q.slot.count x + q.ring.count x

variable {q}

theorem count_ring (r : List Int) (x : Int) :
    { q with ring := r }.count x = q.slot.count x + r.count x := rfl

theorem count_push (gid x : Int) :
    (q.push gid).1.count x = q.count x + if (q.push gid).2 then [gid].count x else 0 := by
  unfold push
  split
  · simp only [count, slot, List.count_append, if_true]
    omega
  · simp

theorem count_pop {gid : Int} (h : q.pop.2 = some gid) (x : Int) :
    q.pop.1.count x + [gid].count x = q.count x := by
  unfold pop at h ⊢
  by_cases hn : q.next = null
  · cases hr : q.ring with
    | nil => simp [hn, hr] at h
    | cons a rest =>
      simp only [hn, hr, ne_eq, not_true_eq_false, if_false, Option.some.injEq] at h ⊢
      simp only [count, slot, hn, hr, if_true, h, List.count_cons, List.count_nil]
      omega
  · simp only [hn, ne_eq, not_false_eq_true, if_true, Option.some.injEq] at h ⊢
    have hs : q.slot = [gid] := by rw [slot, if_neg hn, h]
    simp only [count, hs]
    simp only [slot, if_true, List.count_nil]
    omega

theorem count_takeHalf (x : Int) : q.takeHalf.1.count x + q.takeHalf.2.count x = q.count x := by
  have hc := congrArg (List.count x)
    (List.take_append_drop (q.ring.length - q.ring.length / 2) q.ring)
  rw [List.count_append] at hc
  simp only [takeHalf, count_ring]
  rw [count]
  omega

theorem count_pushNext {gid : Int} (hgid : gid ≠ null) (x : Int) :
    (q.pushNext gid).1.count x + ((q.pushNext gid).2.toList).count x =
      q.count x + [gid].count x := by
  unfold pushNext count slot
  by_cases hn : q.next = null
  · simp only [hn, hgid, if_true, if_false, Option.toList_none, List.count_nil]
    omega
  · simp only [hn, hgid, if_false, Option.toList_some]
    omega

theorem count_grab (x : Int) :
    q.grab.1.count x + q.grab.2.1.count x + q.grab.2.2.toList.count x = q.count x := by
  have hc := congrArg (List.count x)
    (List.take_append_drop (q.ring.length - q.ring.length / 2) q.ring)
  rw [List.count_append] at hc
  have hl : (q.ring.take (q.ring.length - q.ring.length / 2)).dropLast.count x +
      (q.ring.take (q.ring.length - q.ring.length / 2)).getLast?.toList.count x =
        (q.ring.take (q.ring.length - q.ring.length / 2)).count x := by
    rw [← List.count_append]
    cases hg : (q.ring.take (q.ring.length - q.ring.length / 2)).getLast? with
    | none => simp [List.getLast?_eq_none_iff.mp hg]
    | some a => rw [Option.toList_some, List.dropLast_append_getLast? a hg]
  simp only [grab, count_ring]
  rw [count]
  omega

end RunQueue
end Neutron
