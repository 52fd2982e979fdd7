import Neutron.AsyncContext

/-!
# Waiting for two branches

`wait_any` and `wait_all` save the context by pushing one entry onto `ASYNC_STACKS`, push
a second entry that holds the second branch, and restore the context by popping one
entry. What is popped is the second branch.
-/

namespace Neutron

universe u v

variable {F : Type u} {World : Type v}
  {poll : Context F World → F × Int → Option (Context F World × Int)}

/-! ## One round -/

/-- The ways one round of `wait_any` can go. -/
inductive AnyTurn (poll : Context F World → F × Int → Option (Context F World × Int)) (futureA futureB : Int)
    (n : ℕ) (c : Context F World) : Waited F World → Prop
  | idle (htasks : c.asyncTasks = []) : AnyTurn poll futureA futureB n c ⟨c, null, []⟩
  | doneA {task : F × Int} {rest : List (F × Int)} {c₁ : Context F World}
      (htasks : c.asyncTasks = task :: rest) (hpoll : poll c task = some (c₁, 1)) :
      AnyTurn poll futureA futureB n c ⟨c₁.popTask, futureA, [⟨.a, task, 1, c, c₁⟩]⟩
  | lost {task : F × Int} {rest : List (F × Int)} {c₁ : Context F World} {ret : Int}
      (htasks : c.asyncTasks = task :: rest) (hpoll : poll c task = some (c₁, ret)) (hret : ret ≠ 1)
      (hlast : c₁.lastTasks = []) :
      AnyTurn poll futureA futureB n c ⟨c₁, null, [⟨.a, task, ret, c, c₁⟩]⟩
  | doneB {task taskB : F × Int} {rest restB : List (F × Int)} {c₁ c₂ : Context F World} {ret : Int}
      (htasks : c.asyncTasks = task :: rest) (hpoll : poll c task = some (c₁, ret)) (hret : ret ≠ 1)
      (hlast : c₁.lastTasks = taskB :: restB) (hpollB : poll c₁ taskB = some (c₂, 1)) :
      AnyTurn poll futureA futureB n c
        ⟨c₂.popLastTask, futureB, [⟨.a, task, ret, c, c₁⟩, ⟨.b, taskB, 1, c₁, c₂⟩]⟩
  | again {task taskB : F × Int} {rest restB : List (F × Int)} {c₁ c₂ : Context F World} {ret retB : Int}
      {w : Waited F World}
      (htasks : c.asyncTasks = task :: rest) (hpoll : poll c task = some (c₁, ret)) (hret : ret ≠ 1)
      (hlast : c₁.lastTasks = taskB :: restB) (hpollB : poll c₁ taskB = some (c₂, retB)) (hretB : retB ≠ 1)
      (hloop : anyLoop poll futureA futureB n c₂ = some w) :
      AnyTurn poll futureA futureB n c
        { w with polls := ⟨.a, task, ret, c, c₁⟩ :: ⟨.b, taskB, retB, c₁, c₂⟩ :: w.polls }

variable {c : Context F World} {w : Waited F World} {futureA futureB : Int}

theorem anyLoop_turn {n : ℕ}
    (h : anyLoop poll futureA futureB (n + 1) c = some w) : AnyTurn poll futureA futureB n c w := by
  unfold anyLoop at h
  cases htasks : c.asyncTasks with
  | nil =>
    obtain rfl : _ = w := by simpa [htasks] using h
    exact .idle htasks
  | cons task rest =>
    simp only [htasks, Option.bind_eq_some_iff, Prod.exists] at h
    obtain ⟨c₁, ret, hpoll, h⟩ := h
    by_cases hret : ret = 1
    · subst hret
      obtain rfl : _ = w := by simpa using h
      exact .doneA htasks hpoll
    rw [if_neg hret] at h
    cases hlast : c₁.lastTasks with
    | nil =>
      obtain rfl : _ = w := by simpa [hlast] using h
      exact .lost htasks hpoll hret hlast
    | cons taskB restB =>
      simp only [hlast, Option.bind_eq_some_iff, Prod.exists] at h
      obtain ⟨c₂, retB, hpollB, h⟩ := h
      by_cases hretB : retB = 1
      · subst hretB
        obtain rfl : _ = w := by simpa using h
        exact .doneB htasks hpoll hret hlast hpollB
      rw [if_neg hretB, Option.map_eq_some_iff] at h
      obtain ⟨w', hloop, rfl⟩ := h
      exact .again htasks hpoll hret hlast hpollB hretB hloop

/-- One half of a round of `wait_all`: nothing to poll, or one poll. -/
theorem allHalf_cases {branch : Branch} {tasks : Context F World → List (F × Int)}
    {pop : Context F World → Context F World} {c c₁ : Context F World} {done : Bool}
    {polls : List (Polled F World)} (h : allHalf poll branch tasks pop c = some (c₁, done, polls)) :
    (tasks c = [] ∧ c₁ = c ∧ done = true ∧ polls = []) ∨
      ∃ task rest c' ret, tasks c = task :: rest ∧ poll c task = some (c', ret) ∧
        c₁ = (if ret = 1 then pop c' else c') ∧
        (done = true ↔ ret = 1 ∧ ¬(tasks c).length < (tasks c').length) ∧
        polls = [⟨branch, task, ret, c, c'⟩] := by
  unfold allHalf at h
  cases htasks : tasks c with
  | nil =>
    simp only [htasks, Option.some.injEq, Prod.mk.injEq] at h
    obtain ⟨rfl, rfl, rfl⟩ := h
    exact .inl ⟨rfl, rfl, rfl, rfl⟩
  | cons task rest =>
    simp only [htasks, Option.map_eq_some_iff, Prod.mk.injEq, Prod.exists] at h
    obtain ⟨c', ret, hpoll, rfl, rfl, rfl⟩ := h
    exact .inr ⟨task, rest, c', ret, rfl, hpoll, rfl, by simp, rfl⟩

/-- One round of `wait_all`: the loop ends, or each branch that is not done has its half. -/
theorem allLoop_cases {futureB : Int} {n : ℕ} {doneA doneB : Bool}
    (h : allLoop poll futureB (n + 1) doneA doneB c = some w) :
    (doneA = true ∧ doneB = true ∧ w = ⟨c, futureB, []⟩) ∨
      ∃ c₁ doneA' polledA c₂ doneB' polledB w',
        ((doneA = true ∧ c₁ = c ∧ doneA' = true ∧ polledA = []) ∨
          doneA = false ∧ allHalfA poll c = some (c₁, doneA', polledA)) ∧
        ((doneB = true ∧ c₂ = c₁ ∧ doneB' = true ∧ polledB = []) ∨
          doneB = false ∧ allHalfB poll c₁ = some (c₂, doneB', polledB)) ∧
        allLoop poll futureB n doneA' doneB' c₂ = some w' ∧
        w = { w' with polls := polledA ++ polledB ++ w'.polls } := by
  unfold allLoop at h
  by_cases hdone : doneA = true ∧ doneB = true
  · rw [if_pos hdone] at h
    exact .inl ⟨hdone.1, hdone.2, (Option.some_inj.mp h).symm⟩
  rw [if_neg hdone] at h
  simp only [Option.bind_eq_some_iff, Option.map_eq_some_iff, Prod.exists] at h
  obtain ⟨c₁, doneA', polledA, hA, c₂, doneB', polledB, hB, w', hloop, rfl⟩ := h
  refine .inr ⟨c₁, doneA', polledA, c₂, doneB', polledB, w', ?_, ?_, hloop, rfl⟩
  · cases doneA with
    | true =>
      simp only [if_true, Option.some.injEq, Prod.mk.injEq] at hA
      obtain ⟨rfl, rfl, rfl⟩ := hA
      exact .inl ⟨rfl, rfl, rfl, rfl⟩
    | false => exact .inr ⟨rfl, by simpa using hA⟩
  · cases doneB with
    | true =>
      simp only [if_true, Option.some.injEq, Prod.mk.injEq] at hB
      obtain ⟨rfl, rfl, rfl⟩ := hB
      exact .inl ⟨rfl, rfl, rfl, rfl⟩
    | false => exact .inr ⟨rfl, by simpa using hB⟩

/-! ## The stack of saved contexts grows -/

/-- A poll leaves at least as many saved contexts as it found. -/
def Grows (poll : Context F World → F × Int → Option (Context F World × Int)) : Prop :=
  ∀ c task c' ret, poll c task = some (c', ret) → c.asyncStacks.length ≤ c'.asyncStacks.length

theorem Context.length_popLastTask (c : Context F World) :
    c.popLastTask.asyncStacks.length = c.asyncStacks.length := by
  unfold Context.popLastTask
  split
  · rfl
  · rename_i h
    rw [h]
    rfl

theorem Context.asyncTasks_popLastTask (c : Context F World) : c.popLastTask.asyncTasks = c.asyncTasks := by
  unfold Context.popLastTask
  split
  · rfl
  · rfl

theorem Context.length_restoreAsyncContext (c : Context F World) :
    c.asyncStacks.length ≤ c.restoreAsyncContext.asyncStacks.length + 1 := by
  unfold Context.restoreAsyncContext
  split
  · exact Nat.le_succ _
  · rename_i h
    rw [h]
    rfl

theorem Grows.anyLoop (hpoll : Grows poll) (futureA futureB : Int) (n : ℕ)
    (h : anyLoop poll futureA futureB n c = some w) :
    c.asyncStacks.length ≤ w.context.asyncStacks.length := by
  induction n generalizing c w with
  | zero => cases h
  | succ n ih =>
    cases anyLoop_turn h with
    | idle htasks => exact le_rfl
    | doneA htasks hp =>
      have h₁ := hpoll _ _ _ _ hp
      exact h₁
    | lost htasks hp hret hlast => exact hpoll _ _ _ _ hp
    | doneB htasks hp hret hlast hpB =>
      rw [Context.length_popLastTask]
      exact (hpoll _ _ _ _ hp).trans (hpoll _ _ _ _ hpB)
    | again htasks hp hret hlast hpB hretB hloop =>
      have h₁ := ih hloop
      exact ((hpoll _ _ _ _ hp).trans (hpoll _ _ _ _ hpB)).trans h₁

theorem Grows.allHalf (hpoll : Grows poll) {branch : Branch} {tasks : Context F World → List (F × Int)}
    {pop : Context F World → Context F World}
    (hpop : ∀ c, (pop c).asyncStacks.length = c.asyncStacks.length) {c c₁ : Context F World} {done : Bool}
    {polls : List (Polled F World)} (h : allHalf poll branch tasks pop c = some (c₁, done, polls)) :
    c.asyncStacks.length ≤ c₁.asyncStacks.length := by
  rcases allHalf_cases h with ⟨-, rfl, -, -⟩ | ⟨task, rest, c', ret, -, hp, rfl, -, -⟩
  · exact le_rfl
  · split
    · rw [hpop]
      exact hpoll _ _ _ _ hp
    · exact hpoll _ _ _ _ hp

theorem Grows.allLoop (hpoll : Grows poll) (futureB : Int) (n : ℕ) {doneA doneB : Bool}
    (h : allLoop poll futureB n doneA doneB c = some w) :
    c.asyncStacks.length ≤ w.context.asyncStacks.length := by
  induction n generalizing c w doneA doneB with
  | zero => cases h
  | succ n ih =>
    rcases allLoop_cases h with ⟨-, -, rfl⟩ | ⟨c₁, doneA', polledA, c₂, doneB', polledB, w', hA, hB, hloop, rfl⟩
    · exact le_rfl
    have h₁ : c.asyncStacks.length ≤ c₁.asyncStacks.length := by
      rcases hA with ⟨-, rfl, -, -⟩ | ⟨-, hA⟩
      · exact le_rfl
      · exact hpoll.allHalf (fun c => show c.popTask.asyncStacks.length = _ from rfl) hA
    have h₂ : c₁.asyncStacks.length ≤ c₂.asyncStacks.length := by
      rcases hB with ⟨-, rfl, -, -⟩ | ⟨-, hB⟩
      · exact le_rfl
      · exact hpoll.allHalf Context.length_popLastTask hB
    have h₃ := ih hloop
    exact (h₁.trans h₂).trans h₃

theorem Grows.runLoop (hpoll : Grows poll) (n : ℕ) {c c' : Context F World}
    (h : runLoop poll n c = some c') : c.asyncStacks.length ≤ c'.asyncStacks.length := by
  induction n generalizing c with
  | zero => cases h
  | succ n ih =>
    unfold Neutron.runLoop at h
    cases htasks : c.asyncTasks with
    | nil =>
      obtain rfl : c = c' := by simpa [htasks] using h
      exact le_rfl
    | cons task rest =>
      simp only [htasks, Option.bind_eq_some_iff, Prod.exists] at h
      obtain ⟨c₁, ret, hp, hloop⟩ := h
      have hle := ih hloop
      split at hle
      · exact (hpoll _ _ _ _ hp).trans hle
      · exact (hpoll _ _ _ _ hp).trans hle

variable {pollA pollB : F}

/-- A wait for two futures ends with at least one more saved context. -/
theorem Grows.asyncWaitAny (hpoll : Grows poll) {fuel : ℕ} (hA : futureA ≠ null) (hB : futureB ≠ null)
    (h : asyncWaitAny poll fuel c pollA futureA pollB futureB = some w) :
    c.asyncStacks.length < w.context.asyncStacks.length := by
  unfold Neutron.asyncWaitAny at h
  rw [if_neg (by simp [hA]), if_neg (by simp [hA, hB]), Option.map_eq_some_iff] at h
  obtain ⟨w', hloop, rfl⟩ := h
  have h₁ := hpoll.anyLoop futureA futureB fuel hloop
  have h₂ := w'.context.length_restoreAsyncContext
  have h₃ : ((c.saveAsyncContext.pushTask pollA futureA).pushStack [(pollB, futureB)]).asyncStacks.length =
      c.asyncStacks.length + 2 := rfl
  dsimp only
  omega

theorem Grows.asyncWaitAll (hpoll : Grows poll) {fuel : ℕ} (hB : futureB ≠ null)
    (h : asyncWaitAll poll fuel c pollA futureA pollB futureB = some w) :
    c.asyncStacks.length < w.context.asyncStacks.length := by
  unfold Neutron.asyncWaitAll at h
  rw [if_neg (by simp [hB]), Option.map_eq_some_iff] at h
  obtain ⟨w', hloop, rfl⟩ := h
  have h₁ := hpoll.allLoop futureB fuel hloop
  have h₂ := w'.context.length_restoreAsyncContext
  have h₃ (c : Context F World) : (c.pushStack [(pollB, futureB)]).asyncStacks.length =
      c.asyncStacks.length + 1 := rfl
  have h₄ : (if futureA ≠ null then c.saveAsyncContext.pushTask pollA futureA
      else c.saveAsyncContext).asyncStacks.length = c.asyncStacks.length + 1 := by
    split <;> rfl
  rw [if_pos hB, h₃, h₄] at h₁
  dsimp only
  omega

theorem Grows.asyncWaitAny_le (hpoll : Grows poll) {fuel : ℕ}
    (h : Neutron.asyncWaitAny poll fuel c pollA futureA pollB futureB = some w) :
    c.asyncStacks.length ≤ w.context.asyncStacks.length := by
  by_cases hnull : futureA = null ∨ futureB = null
  · unfold Neutron.asyncWaitAny at h
    rw [if_pos hnull] at h
    split at h
    · obtain rfl := Option.some_inj.mp h
      exact le_rfl
    · split at h
      · obtain rfl := Option.some_inj.mp h
        exact le_rfl
      · obtain rfl := Option.some_inj.mp h
        exact le_rfl
  · rw [not_or] at hnull
    exact (hpoll.asyncWaitAny hnull.1 hnull.2 h).le

theorem Grows.asyncWaitAll_le (hpoll : Grows poll) {fuel : ℕ}
    (h : Neutron.asyncWaitAll poll fuel c pollA futureA pollB futureB = some w) :
    c.asyncStacks.length ≤ w.context.asyncStacks.length := by
  by_cases hB : futureB = null
  · unfold Neutron.asyncWaitAll at h
    by_cases hA : futureA = null
    · rw [if_pos ⟨hA, hB⟩] at h
      obtain rfl := Option.some_inj.mp h
      exact le_rfl
    · rw [if_neg (by simp [hA]), Option.map_eq_some_iff] at h
      obtain ⟨w', hloop, rfl⟩ := h
      have h₁ := hpoll.allLoop futureB fuel hloop
      have h₂ := w'.context.length_restoreAsyncContext
      have h₃ : (c.saveAsyncContext.pushTask pollA futureA).asyncStacks.length =
          c.asyncStacks.length + 1 := rfl
      rw [if_neg (by simp [hB]), if_pos hA, h₃] at h₁
      dsimp only
      omega
  · exact (hpoll.asyncWaitAll hB h).le

theorem exec_grows (code : F → Int → Script F World) (legacy : Bool) (n : ℕ) {c c' : Context F World}
    {script : Script F World} {value : Int} (h : exec code legacy n c script = some (c', value)) :
    c.asyncStacks.length ≤ c'.asyncStacks.length := by
  induction n generalizing c c' script value with
  | zero => cases h
  | succ n ih =>
    have hpoll : Grows (fun c t => exec code legacy n c (code t.1 t.2)) := fun _ _ _ _ hp => ih hp
    cases script with
    | ret r =>
      obtain ⟨rfl, -⟩ : c = c' ∧ r = value := by simpa [exec] using h
      exact le_rfl
    | access act next => exact ih (c := { c with world := act c.world }) h
    | push pollFn future next =>
      have h₁ := ih h
      unfold Context.asyncPush at h₁
      split at h₁
      · exact h₁
      · exact h₁
    | waitAny pollA futureA pollB futureB next =>
      simp only [exec, Option.bind_eq_some_iff] at h
      obtain ⟨w, hwait, hnext⟩ := h
      exact (hpoll.asyncWaitAny_le hwait).trans (ih hnext)
    | waitAll pollA futureA pollB futureB next =>
      simp only [exec, Option.bind_eq_some_iff] at h
      obtain ⟨w, hwait, hnext⟩ := h
      exact (hpoll.asyncWaitAll_le hwait).trans (ih hnext)
    | run pollFn root next =>
      simp only [exec, Option.bind_eq_some_iff] at h
      obtain ⟨c₁, hrun, hnext⟩ := h
      unfold asyncRun at hrun
      split at hrun
      · obtain rfl := Option.some_inj.mp hrun
        exact ih hnext
      · have h₁ := hpoll.runLoop n hrun
        exact (Nat.le_succ _).trans (h₁.trans (ih hnext))

theorem callPoll_grows (code : F → Int → Script F World) (legacy : Bool) (fuel : ℕ) :
    Grows (callPoll code legacy fuel) :=
  fun _ _ _ _ hp => exec_grows code legacy fuel hp

/-- Neither wait gives the context back: whenever it returns, `ASYNC_STACKS` holds at least
one entry more than before. -/
theorem waits_leave_saved_context (code : F → Int → Script F World) (legacy : Bool) (fuel rounds : ℕ)
    (c : Context F World) (pollA pollB : F) (futureA futureB : Int) (hA : futureA ≠ null)
    (hB : futureB ≠ null) :
    (∀ w, asyncWaitAny (callPoll code legacy fuel) rounds c pollA futureA pollB futureB = some w →
      ¬(w.context.asyncTasks = c.asyncTasks ∧ w.context.asyncStacks = c.asyncStacks)) ∧
    (∀ w, asyncWaitAll (callPoll code legacy fuel) rounds c pollA futureA pollB futureB = some w →
      ¬(w.context.asyncTasks = c.asyncTasks ∧ w.context.asyncStacks = c.asyncStacks)) := by
  have hpoll := callPoll_grows code legacy fuel
  constructor
  · rintro w h ⟨-, hstacks⟩
    have hlt := hpoll.asyncWaitAny hA hB h
    rw [hstacks] at hlt
    exact absurd hlt (lt_irrefl _)
  · rintro w h ⟨-, hstacks⟩
    have hlt := hpoll.asyncWaitAll hB h
    rw [hstacks] at hlt
    exact absurd hlt (lt_irrefl _)

/-- Two branches that complete on their first poll, awaited by a parent at address `7`. -/
def readyCode : Bool → Int → Script Bool Unit := fun _ _ => .ret 1

def parentContext : Context Bool Unit := ⟨[(true, 7)], [], ()⟩

theorem waits_leave_saved_context_of_ready :
    (asyncWaitAny (callPoll readyCode false 1) 1 parentContext true 1 false 2).isSome ∧
    (∀ w, asyncWaitAny (callPoll readyCode false 1) 1 parentContext true 1 false 2 = some w →
      ¬(w.context.asyncTasks = [(true, 7)] ∧ w.context.asyncStacks = [])) ∧
    (asyncWaitAll (callPoll readyCode false 1) 2 parentContext true 1 false 2).isSome ∧
    (∀ w, asyncWaitAll (callPoll readyCode false 1) 2 parentContext true 1 false 2 = some w →
      ¬(w.context.asyncTasks = [(true, 7)] ∧ w.context.asyncStacks = [])) :=
  ⟨by decide,
    (waits_leave_saved_context readyCode false 1 1 parentContext true false 1 2 (by decide) (by decide)).1,
    by decide,
    (waits_leave_saved_context readyCode false 1 2 parentContext true false 1 2 (by decide) (by decide)).2⟩

/-- After both waits the active context is the second branch, and the parent is left behind
on `ASYNC_STACKS`. -/
theorem waits_are_not_transparent :
    ¬ ∀ (code : Bool → Int → Script Bool Unit) (legacy : Bool) (fuel rounds : ℕ)
        (c : Context Bool Unit) (pollA pollB : Bool) (futureA futureB : Int), futureA ≠ null → futureB ≠ null →
      (∀ w, asyncWaitAny (callPoll code legacy fuel) rounds c pollA futureA pollB futureB = some w →
        w.context.asyncTasks = c.asyncTasks ∧ w.context.asyncStacks = c.asyncStacks) ∧
      (∀ w, asyncWaitAll (callPoll code legacy fuel) rounds c pollA futureA pollB futureB = some w →
        w.context.asyncTasks = c.asyncTasks ∧ w.context.asyncStacks = c.asyncStacks) := by
  intro hall
  have h := (hall readyCode false 1 1 parentContext true false 1 2 (by decide) (by decide)).1 _ rfl
  exact absurd h.1 (by decide)

end Neutron
