import Mathlib.Algebra.BigOperators.Group.Finset.Basic
import Mathlib.Logic.Relation

/-!
# Breadth-first search

A queue of nodes and the nodes taken from it so far. A node that was taken before is dropped, a goal ends the
search, and any other node puts its successors at the end of the queue. A result of `none` means that the fuel was
spent.
-/

namespace Neutron.Worklist

open Relation

variable {α : Type*} [DecidableEq α] (next : α → List α) (goal : α → Bool)

def search : ℕ → List α → List α → Option (Bool × List α)
  | 0, _, _ => none
  | _ + 1, [], seen => some (false, seen)
  | n + 1, a :: queue, seen =>
    if goal a then some (true, seen)
    else if a ∈ seen then search n queue seen
    else search n (queue ++ next a) (seen ++ [a])

/-- `b` comes directly after `a`. -/
def Step (a b : α) : Prop := b ∈ next a

/-- The nodes taken are followed by nodes taken or waiting. -/
def Frontier (queue seen : List α) : Prop := ∀ a ∈ seen, ∀ b ∈ next a, b ∈ seen ∨ b ∈ queue

variable {next goal}

omit [DecidableEq α] in
theorem Frontier.drop {a : α} {queue seen : List α} (h : Frontier next (a :: queue) seen) (ha : a ∈ seen) :
    Frontier next queue seen := by
  intro b hb c hc
  rcases h b hb c hc with hseen | hqueue
  · exact .inl hseen
  · rcases List.mem_cons.mp hqueue with rfl | hqueue
    · exact .inl ha
    · exact .inr hqueue

omit [DecidableEq α] in
theorem Frontier.take {a : α} {queue seen : List α} (h : Frontier next (a :: queue) seen) :
    Frontier next (queue ++ next a) (seen ++ [a]) := by
  intro b hb c hc
  simp only [List.mem_append, List.mem_singleton] at hb ⊢
  rcases hb with hb | rfl
  · rcases h b hb c hc with hseen | hqueue
    · exact .inl (.inl hseen)
    · rcases List.mem_cons.mp hqueue with rfl | hqueue
      · exact .inl (.inr rfl)
      · exact .inr (.inl hqueue)
  · exact .inr (.inr hc)

/-- A goal that is found was reached from the queue. -/
theorem search_found {n : ℕ} {queue seen out : List α} (h : search next goal n queue seen = some (true, out)) :
    ∃ q ∈ queue, ∃ a, ReflTransGen (Step next) q a ∧ goal a = true := by
  induction n generalizing queue seen with
  | zero => cases h
  | succ n ih =>
    cases queue with
    | nil => cases h
    | cons a queue =>
      rw [search] at h
      split_ifs at h with hgoal hseen
      · exact ⟨a, List.mem_cons_self, a, .refl, hgoal⟩
      · obtain ⟨q, hq, found⟩ := ih h
        exact ⟨q, List.mem_cons_of_mem a hq, found⟩
      · obtain ⟨q, hq, b, hreach, hb⟩ := ih h
        rcases List.mem_append.mp hq with hq | hq
        · exact ⟨q, List.mem_cons_of_mem a hq, b, hreach, hb⟩
        · exact ⟨a, List.mem_cons_self, b, .head hq hreach, hb⟩

/-- What a search without a goal leaves behind. -/
structure Exhausted (next : α → List α) (goal : α → Bool) (queue seen out : List α) : Prop where
  taken : seen <+: out
  queued : ∀ a ∈ queue, a ∈ out
  closed : ∀ a ∈ out, ∀ b ∈ next a, b ∈ out
  reached : ∀ a ∈ out, a ∈ seen ∨ goal a = false ∧ ∃ q ∈ queue, ReflTransGen (Step next) q a
  nodup : seen.Nodup → out.Nodup

theorem search_exhausted {n : ℕ} {queue seen out : List α} (hfrontier : Frontier next queue seen)
    (h : search next goal n queue seen = some (false, out)) : Exhausted next goal queue seen out := by
  induction n generalizing queue seen with
  | zero => cases h
  | succ n ih =>
    cases queue with
    | nil =>
      cases h
      exact ⟨List.prefix_rfl, fun a ha => absurd ha List.not_mem_nil,
        fun a ha b hb => (hfrontier a ha b hb).resolve_right List.not_mem_nil, fun a ha => .inl ha, fun hn => hn⟩
    | cons a queue =>
      rw [search] at h
      split_ifs at h with hgoal hseen
      · cases h
      · have hrest := ih (hfrontier.drop hseen) h
        refine ⟨hrest.taken, ?_, hrest.closed, fun b hb => (hrest.reached b hb).imp_right ?_, hrest.nodup⟩
        · exact List.forall_mem_cons.mpr ⟨hrest.taken.subset hseen, hrest.queued⟩
        · rintro ⟨hb, q, hq, hreach⟩
          exact ⟨hb, q, List.mem_cons_of_mem a hq, hreach⟩
      · have hrest := ih hfrontier.take h
        have ha : a ∈ out := hrest.taken.subset (by simp)
        refine ⟨(List.prefix_append _ _).trans hrest.taken, ?_, hrest.closed, fun b hb => ?_, fun hn => ?_⟩
        · exact List.forall_mem_cons.mpr ⟨ha, fun b hb => hrest.queued b (List.mem_append_left _ hb)⟩
        · rcases hrest.reached b hb with hb | ⟨hb, q, hq, hreach⟩
          · rcases List.mem_append.mp hb with hb | hb
            · exact .inl hb
            · obtain rfl := List.mem_singleton.mp hb
              exact .inr ⟨Bool.not_eq_true _ ▸ hgoal, b, List.mem_cons_self, .refl⟩
          · rcases List.mem_append.mp hq with hq | hq
            · exact .inr ⟨hb, q, List.mem_cons_of_mem a hq, hreach⟩
            · exact .inr ⟨hb, a, List.mem_cons_self, .head hq hreach⟩
        · exact hrest.nodup (List.nodup_append.mpr ⟨hn, List.nodup_singleton a, by
            rintro b hb c hc rfl
            exact hseen (List.mem_singleton.mp hc ▸ hb)⟩)

omit [DecidableEq α] in
/-- What is reached from the queue is among the nodes an exhausted search has taken. -/
theorem Exhausted.complete {queue seen out : List α} (h : Exhausted next goal queue seen out) {q a : α}
    (hq : q ∈ queue) (hreach : ReflTransGen (Step next) q a) : a ∈ out := by
  induction hreach with
  | refl => exact h.queued q hq
  | tail _ hstep ih => exact h.closed _ ih _ hstep

/-- A search among finitely many nodes with successors ends: every node taken adds its successors once. -/
theorem search_isSome (nodes : Finset α) (hleaf : ∀ a ∉ nodes, next a = []) {n : ℕ} {queue seen : List α}
    (hn : queue.length + ∑ a ∈ nodes \ seen.toFinset, (next a).length < n) :
    (search next goal n queue seen).isSome := by
  induction n generalizing queue seen with
  | zero => exact absurd hn (Nat.not_lt_zero _)
  | succ n ih =>
    cases queue with
    | nil => rfl
    | cons a queue =>
      rw [search]
      rw [List.length_cons] at hn
      split_ifs with hgoal hseen
      · rfl
      · exact ih (by omega)
      · apply ih
        have hrest : nodes \ (seen ++ [a]).toFinset = (nodes \ seen.toFinset).erase a := by
          ext b
          simp only [Finset.mem_sdiff, Finset.mem_erase, List.mem_toFinset, List.mem_append, List.mem_singleton]
          tauto
        rw [hrest, List.length_append]
        by_cases ha : a ∈ nodes
        · have hmem : a ∈ nodes \ seen.toFinset := Finset.mem_sdiff.mpr ⟨ha, by simpa using hseen⟩
          have hsum := Finset.sum_erase_add (nodes \ seen.toFinset) (fun a => (next a).length) hmem
          omega
        · rw [hleaf a ha, List.length_nil, Finset.erase_eq_of_notMem (by simp [ha])]
          omega

end Neutron.Worklist
