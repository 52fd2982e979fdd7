import Mathlib.Algebra.Order.BigOperators.Group.Finset
import Mathlib.Data.Fintype.BigOperators
import Mathlib.Data.Fintype.Card
import Neutron.Execution
import Neutron.FiniteTable

/-!
# The packed idle word

`IDLE_STATE` packs the number of searching workers (the low 16 bits) and the number of
unparked workers into one machine word that is changed by wrapping additions and
subtractions only. A thread blocked in `join_blocking` subtracts an unparked worker it
never added, so the upper field is the number of unparked workers less the number of
blocked threads, as long as that does not fall below zero.
-/

namespace Neutron

open Execution

/-- Where a worker stands between the atomic operations on the idle word. -/
inductive IdlePhase
  | off
  | running
  | searching
  | settled
  | parked
  deriving DecidableEq

structure IdlePool (n : ℕ) where
  word : ℕ
  phase : Fin n → IdlePhase
  waiting : Finset ℕ

/-- The atomic operations on the word. A step whose thread is elsewhere does nothing. -/
inductive IdleAct (n : ℕ)
  | start (w : Fin n)
  | stop (w : Fin n)
  | search (w : Fin n)
  | giveUp (w : Fin n)
  | resume (w : Fin n)
  | park (w : Fin n)
  | unpark (w : Fin n)
  | joinWait (t : ℕ)
  | joinWake (t : ℕ)

namespace IdlePool

variable {n : ℕ}

def unparkedUnit : ℕ := 2 ^ 16

def wordSize : ℕ := 2 ^ 64

def fetchAdd (word d : ℕ) : ℕ := (word + d) % wordSize

def fetchSub (word d : ℕ) : ℕ := (word + (wordSize - d)) % wordSize

variable (p : IdlePool n)

def searchingField : ℕ := p.word % unparkedUnit

def unparkedField : ℕ := p.word / unparkedUnit

def shouldWake : Bool := p.searchingField = 0 ∧ p.unparkedField < n

/-- The worker moves between two phases while the word changes. -/
def move (w : Fin n) (src dst : IdlePhase) (f : ℕ → ℕ) : IdlePool n :=
  if p.phase w = src then { p with word := f p.word, phase := Function.update p.phase w dst } else p

def step : IdleAct n → IdlePool n
  | .start w => p.move w .off .running (fetchAdd · unparkedUnit)
  | .stop w => p.move w .running .off (fetchSub · unparkedUnit)
  | .search w => p.move w .running .searching (fetchAdd · 1)
  | .giveUp w => p.move w .searching .settled (fetchSub · 1)
  | .resume w => p.move w .settled .running id
  | .park w => p.move w .settled .parked (fetchSub · unparkedUnit)
  | .unpark w => p.move w .parked .running (fetchAdd · unparkedUnit)
  | .joinWait t =>
      if t ∈ p.waiting then p
      else { p with word := fetchSub p.word unparkedUnit, waiting := insert t p.waiting }
  | .joinWake t =>
      if t ∈ p.waiting then
        { p with word := fetchAdd p.word unparkedUnit, waiting := p.waiting.erase t }
      else p

def idle (n : ℕ) : IdlePool n := ⟨0, fun _ => .off, ∅⟩

/-- Both fields in range, and a parked worker is woken unless another one searches. -/
structure Faithful (p : IdlePool n) : Prop where
  unparked : p.unparkedField ≤ n
  searching : p.searchingField ≤ n
  wakes : (∀ w, p.phase w ≠ .searching) → (∃ w, p.phase w = .parked) → p.shouldWake = true

/-! ## Counting -/

def unparkedPhase : IdlePhase → Bool
  | .running | .searching | .settled => true
  | _ => false

def count (k : IdlePhase → Bool) : ℕ := ∑ w, if k (p.phase w) then 1 else 0

def unparkedCount : ℕ := p.count unparkedPhase

def searchingCount : ℕ := p.count (· = .searching)

/-- A step that subtracts from the upper field finds an unparked worker that no blocked
thread has subtracted yet. -/
def Covered (p : IdlePool n) : IdleAct n → Prop
  | .stop w => p.phase w = .running → p.waiting.card < p.unparkedCount
  | .park w => p.phase w = .settled → p.waiting.card < p.unparkedCount
  | .joinWait t => t ∉ p.waiting → p.waiting.card < p.unparkedCount
  | _ => True

instance Covered.decidable (p : IdlePool n) : ∀ a, Decidable (p.Covered a)
  | .stop w => inferInstanceAs (Decidable (p.phase w = .running → _))
  | .park w => inferInstanceAs (Decidable (p.phase w = .settled → _))
  | .joinWait t => inferInstanceAs (Decidable (t ∉ p.waiting → _))
  | .start _ | .search _ | .giveUp _ | .resume _ | .unpark _ | .joinWake _ => .isTrue trivial

/-- The word says what the phases and the blocked threads say. -/
structure Accurate (p : IdlePool n) : Prop where
  covered : p.waiting.card ≤ p.unparkedCount
  word : p.word = (p.unparkedCount - p.waiting.card) * unparkedUnit + p.searchingCount

variable {p}

theorem count_move (k : IdlePhase → Bool) {w : Fin n} {src : IdlePhase} (dst : IdlePhase) (f : ℕ → ℕ)
    (h : p.phase w = src) :
    (p.move w src dst f).count k + (if k src then 1 else 0) = p.count k + if k dst then 1 else 0 := by
  rw [move, if_pos h]
  have hsum := sum_update_add (fun ph => if k ph then 1 else 0) p.phase w dst
  rw [h] at hsum
  exact hsum

theorem count_le (k : IdlePhase → Bool) : p.count k ≤ n := by
  have h := Finset.sum_le_card_nsmul Finset.univ (fun w => if k (p.phase w) then 1 else 0) 1
    (fun w _ => by split <;> omega)
  simpa [count] using h

theorem searchingCount_le : p.searchingCount ≤ p.unparkedCount := by
  unfold searchingCount unparkedCount count
  refine Finset.sum_le_sum (fun w _ => ?_)
  cases p.phase w <;> simp [unparkedPhase]

theorem unparkedCount_lt {w : Fin n} (h : unparkedPhase (p.phase w) = false) : p.unparkedCount < n := by
  have hsum : p.unparkedCount ≤ ∑ v ∈ Finset.univ.erase w, 1 := by
    unfold unparkedCount count
    rw [← Finset.add_sum_erase _ _ (Finset.mem_univ w), h]
    simp only [Bool.false_eq_true, if_false, zero_add]
    exact Finset.sum_le_sum (fun v _ => by split <;> omega)
  have hpos : 0 < n := w.pos
  rw [← Finset.card_eq_sum_ones, Finset.card_erase_of_mem (Finset.mem_univ w), Finset.card_univ,
    Fintype.card_fin] at hsum
  omega

/-! ## The word under the guard -/

variable (hn : n < 2 ^ 16)

include hn

theorem Accurate.fields (h : p.Accurate) :
    p.searchingField = p.searchingCount ∧ p.unparkedField = p.unparkedCount - p.waiting.card := by
  have hs := (searchingCount_le (p := p)).trans (count_le (p := p) unparkedPhase)
  have hlt : p.searchingCount < unparkedUnit := hs.trans_lt hn
  constructor
  · rw [searchingField, h.word, Nat.mul_add_mod_of_lt hlt]
  · rw [unparkedField, h.word, Nat.mul_comm, Nat.mul_add_div (by decide), Nat.div_eq_of_lt hlt,
      Nat.add_zero]

theorem Accurate.faithful (h : p.Accurate) : p.Faithful := by
  obtain ⟨hsearch, hunparked⟩ := h.fields hn
  have hU : p.unparkedCount ≤ n := count_le unparkedPhase
  have hS := searchingCount_le (p := p)
  refine ⟨by omega, by omega, fun hnone hparked => ?_⟩
  obtain ⟨w, hw⟩ := hparked
  have hlt := unparkedCount_lt (p := p) (w := w) (by rw [hw]; rfl)
  have hzero : p.searchingCount = 0 := by
    unfold searchingCount count
    exact Finset.sum_eq_zero (fun v _ => by simp [hnone v])
  simp only [shouldWake, decide_eq_true_eq]
  omega

omit hn in
theorem fetchSub_of_le {word d : ℕ} (h : d ≤ word) (hw : word < wordSize) :
    fetchSub word d = word - d := by
  unfold fetchSub wordSize at *
  omega

omit hn in
theorem fetchAdd_of_lt {word d : ℕ} (h : word + d < wordSize) : fetchAdd word d = word + d :=
  Nat.mod_eq_of_lt h

theorem Accurate.word_lt (h : p.Accurate) : p.word + unparkedUnit < wordSize := by
  have hS := searchingCount_le (p := p)
  have hU : p.unparkedCount ≤ n := count_le unparkedPhase
  rw [h.word]
  unfold unparkedUnit wordSize
  omega

/-- The covered subtraction takes one unit of the upper field. -/
theorem Accurate.sub_unit (h : p.Accurate) (hlt : p.waiting.card < p.unparkedCount) :
    fetchSub p.word unparkedUnit + unparkedUnit = p.word := by
  have hword := h.word_lt hn
  have hle : unparkedUnit ≤ p.word := by
    rw [h.word]
    exact (Nat.le_mul_of_pos_left _ (by omega)).trans (Nat.le_add_right _ _)
  rw [fetchSub_of_le hle (by omega), Nat.sub_add_cancel hle]

/-- The other one wraps the word around. -/
theorem Accurate.wraps (h : p.Accurate) (hle : p.unparkedCount ≤ p.waiting.card) {q : IdlePool n}
    (hq : q.word = fetchSub p.word unparkedUnit) : ¬q.Faithful := by
  intro hf
  have hS := searchingCount_le (p := p)
  have hU : p.unparkedCount ≤ n := count_le unparkedPhase
  have hword : p.word = p.searchingCount := by
    rw [h.word, Nat.sub_eq_zero_of_le hle, Nat.zero_mul, Nat.zero_add]
  have hfield := hf.unparked
  rw [unparkedField, hq, hword] at hfield
  unfold fetchSub unparkedUnit wordSize at hfield
  omega

omit hn in
/-- A worker's move keeps the word accurate if it changes the word as it changes the counts. -/
theorem Accurate.move {w : Fin n} {src dst : IdlePhase} {f : ℕ → ℕ} (h : p.Accurate)
    (hword : p.phase w = src →
      f p.word + (if unparkedPhase src then 1 else 0) * unparkedUnit + (if src = .searching then 1 else 0)
        = p.word + (if unparkedPhase dst then 1 else 0) * unparkedUnit
          + if dst = .searching then 1 else 0)
    (hcover : p.phase w = src → (if unparkedPhase src then 1 else 0) + p.waiting.card ≤
      p.unparkedCount + if unparkedPhase dst then 1 else 0) : (p.move w src dst f).Accurate := by
  by_cases hw : p.phase w = src
  · have hU := count_move unparkedPhase dst f hw
    have hS := count_move (· = .searching) dst f hw
    have hwaiting : (p.move w src dst f).waiting = p.waiting := by rw [IdlePool.move, if_pos hw]
    have hnew : (p.move w src dst f).word = f p.word := by rw [IdlePool.move, if_pos hw]
    have hcov := h.covered
    have hcv := hcover hw
    have hwd := hword hw
    simp only [decide_eq_true_eq] at hS
    have hold := h.word
    unfold unparkedCount at hold hcv hcov
    unfold searchingCount at hold
    generalize (if unparkedPhase src then 1 else 0) = us at hU hwd hcv
    generalize (if unparkedPhase dst then 1 else 0) = ud at hU hwd hcv
    refine ⟨by rw [unparkedCount, hwaiting]; omega, ?_⟩
    have hdiff : (p.move w src dst f).count unparkedPhase - p.waiting.card + us
        = p.count unparkedPhase - p.waiting.card + ud := by omega
    have hmul := congrArg (· * unparkedUnit) hdiff
    simp only [Nat.add_mul] at hmul
    rw [unparkedCount, searchingCount, hwaiting, hnew]
    omega
  · rwa [IdlePool.move, if_neg hw]

omit hn in
/-- A blocked thread changes the word by the unit it stands for. -/
theorem Accurate.join {q : IdlePool n} (h : p.Accurate) (hphase : q.phase = p.phase)
    (hcover : q.waiting.card ≤ p.unparkedCount)
    (hword : q.word + q.waiting.card * unparkedUnit = p.word + p.waiting.card * unparkedUnit) :
    q.Accurate := by
  have hcount (k) : q.count k = p.count k := by rw [count, count, hphase]
  have hcov := h.covered
  have hold := h.word
  refine ⟨by rwa [unparkedCount, hcount], ?_⟩
  rw [unparkedCount, searchingCount, hcount, hcount, ← unparkedCount, ← searchingCount]
  have hdiff : p.unparkedCount - q.waiting.card + q.waiting.card
      = p.unparkedCount - p.waiting.card + p.waiting.card := by omega
  have hmul := congrArg (· * unparkedUnit) hdiff
  simp only [Nat.add_mul] at hmul
  omega

theorem Accurate.step (h : p.Accurate) {a : IdleAct n} (ha : p.Covered a) : (p.step a).Accurate := by
  have hlt := h.word_lt hn
  have hcov := h.covered
  have hword := h.word
  have hadd : fetchAdd p.word unparkedUnit = p.word + unparkedUnit := fetchAdd_of_lt hlt
  cases a <;> simp only [IdlePool.step]
  case start w =>
    exact h.move (fun _ => by simp [unparkedPhase, hadd]) (fun _ => by simp [unparkedPhase]; omega)
  case unpark w =>
    exact h.move (fun _ => by simp [unparkedPhase, hadd]) (fun _ => by simp [unparkedPhase]; omega)
  case stop w =>
    exact h.move (fun hw => by simpa [unparkedPhase] using h.sub_unit hn (ha hw))
      (fun hw => by simpa [unparkedPhase, Nat.add_comm, Nat.succ_le_iff] using ha hw)
  case park w =>
    exact h.move (fun hw => by simpa [unparkedPhase] using h.sub_unit hn (ha hw))
      (fun hw => by simpa [unparkedPhase, Nat.add_comm, Nat.succ_le_iff] using ha hw)
  case resume w =>
    exact h.move (fun _ => by simp [unparkedPhase]) (fun _ => by simp [unparkedPhase]; omega)
  case search w =>
    have hone : fetchAdd p.word 1 = p.word + 1 := fetchAdd_of_lt (by unfold unparkedUnit at hlt; omega)
    exact h.move (fun _ => by simp [unparkedPhase, hone]; omega)
      (fun _ => by simp [unparkedPhase]; omega)
  case giveUp w =>
    refine h.move (fun hw => ?_) (fun _ => by simp [unparkedPhase]; omega)
    have hpos : 1 ≤ p.searchingCount := by
      have := count_move (· = .searching) .off id hw
      simp at this
      unfold searchingCount
      omega
    rw [fetchSub_of_le (by omega) (by omega)]
    simp [unparkedPhase]
    omega
  case joinWait t =>
    by_cases ht : t ∈ p.waiting
    · rwa [if_pos ht]
    · rw [if_neg ht]
      have hsub := h.sub_unit hn (ha ht)
      have hcard := Finset.card_insert_of_notMem ht
      refine h.join rfl (hcard.trans_le (ha ht)) ?_
      simp only [hcard, Nat.add_mul, Nat.one_mul]
      omega
  case joinWake t =>
    by_cases ht : t ∈ p.waiting
    · rw [if_pos ht, hadd]
      have hcard := Finset.card_erase_add_one ht
      refine h.join rfl ((Finset.card_erase_le).trans hcov) ?_
      simp only [← hcard, Nat.add_mul, Nat.one_mul]
      omega
    · rwa [if_neg ht]

theorem Accurate.not_faithful (h : p.Accurate) {a : IdleAct n} (ha : ¬p.Covered a) :
    ¬(p.step a).Faithful := by
  cases a <;> simp only [Covered, not_true_eq_false, Classical.not_imp, not_lt] at ha
  all_goals
    refine h.wraps hn ha.2 ?_
    simp only [IdlePool.step, IdlePool.move, ha.1, if_true, if_false]

omit hn in
theorem accurate_idle : (idle n).Accurate := by
  have hzero (k) (hk : k .off = false) : (idle n).count k = 0 := by
    simp [count, idle, hk]
  refine ⟨by simp [idle], ?_⟩
  rw [unparkedCount, searchingCount, hzero _ rfl, hzero _ rfl, Nat.zero_sub, Nat.zero_mul]
  rfl

end IdlePool

/-- The word stays in range and every needed wake is sent exactly as long as no subtraction
outruns the unparked workers. -/
theorem idle_word_faithful_iff {n : ℕ} (hn : n < 2 ^ 16) (acts : List (IdleAct n)) :
    Throughout IdlePool.step IdlePool.Faithful (.idle n) acts
      ↔ Allowed IdlePool.step IdlePool.Covered (.idle n) acts :=
  throughout_iff_allowed (fun _ h => h.faithful hn) (fun _ _ h ha => h.step hn ha)
    (fun _ _ h ha => h.not_faithful hn ha) IdlePool.accurate_idle

/-- Two workers, one of which parks after a blocked thread has come back. -/
theorem idle_word_faithful_of_early_wake :
    Throughout IdlePool.step IdlePool.Faithful (.idle 2)
      [.start 0, .start 1, .joinWait 7, .search 0, .giveUp 0, .joinWake 7, .park 0] :=
  (idle_word_faithful_iff (by decide) _).mpr (by decide)

/-- The only worker is parked when a thread blocks in `join_blocking`: the upper field is then
`2 ^ 48 - 1` and nothing wakes the worker. -/
theorem joinWait_underflows :
    ¬Throughout IdlePool.step IdlePool.Faithful (.idle 1)
      [.start 0, .search 0, .giveUp 0, .park 0, .joinWait 0] := by
  intro h
  have hlast := h.2.2.2.2.2.wakes (by decide) (by decide)
  exact absurd hlast (by decide)

end Neutron
