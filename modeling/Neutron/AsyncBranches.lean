import Neutron.AsyncWait

/-!
# Which branch a wait reports

A round of a wait polls the top of `ASYNC_TASKS` for the first branch and the top of the
last saved context for the second. Children go to `ASYNC_TASKS`, whichever branch pushes
them. The polls a wait makes are recorded, so that what it returns can be compared with
what the two roots did.
-/

namespace Neutron

universe u v

variable {F : Type u} {World : Type v}
  {poll : Context F World → F × Int → Option (Context F World × Int)}

namespace Polled

/-- The tasks a poll left on top of `ASYNC_TASKS`. -/
def pushed (e : Polled F World) : List (F × Int) :=
  e.after.asyncTasks.take (e.after.asyncTasks.length - e.before.asyncTasks.length)

/-- The poll pushed no child and started no wait: the context is as it was. -/
def Quiet (e : Polled F World) : Prop :=
  e.after.asyncTasks = e.before.asyncTasks ∧ e.after.asyncStacks = e.before.asyncStacks

/-- A poll of the branch's own root returned `1`. -/
def Completed (polls : List (Polled F World)) (branch : Branch) (root : F × Int) : Prop :=
  ∃ e ∈ polls, e.branch = branch ∧ e.task = root ∧ e.ret = 1

/-- Each half of a round polls the root of its branch, or a child that an earlier poll of
the same branch pushed. -/
def OwnTasks (polls : List (Polled F World)) (roots : Branch → F × Int) : Prop :=
  ∀ (i : ℕ) e, polls[i]? = some e → e.task = roots e.branch ∨
    ∃ j < i, ∃ e', polls[j]? = some e' ∧ e'.branch = e.branch ∧ e.task ∈ e'.pushed

theorem Completed.mono {polls polls' : List (Polled F World)} {branch : Branch} {root : F × Int}
    (h : Completed polls branch root) (hsub : polls ⊆ polls') : Completed polls' branch root := by
  obtain ⟨e, he, hrest⟩ := h
  exact ⟨e, hsub he, hrest⟩

theorem ownTasks_of_roots {polls : List (Polled F World)} {roots : Branch → F × Int}
    (h : ∀ e ∈ polls, e.task = roots e.branch) : OwnTasks polls roots :=
  fun _ e he => .inl (h e (List.mem_of_getElem? he))

end Polled

open Polled

def branchRoots (pollA : F) (futureA : Int) (pollB : F) (futureB : Int) : Branch → F × Int
  | .a => (pollA, futureA)
  | .b => (pollB, futureB)

section Quiet

variable {pollA pollB : F} {futureA futureB : Int}

theorem Context.lastTasks_congr {c c' : Context F World} (h : c'.asyncStacks = c.asyncStacks) :
    c'.lastTasks = c.lastTasks := by
  rw [Context.lastTasks, h, Context.lastTasks]

/-- While every poll is quiet, `wait_any` polls only the two roots. -/
theorem anyLoop_quiet (n : ℕ) {c : Context F World} {w : Waited F World}
    (h : anyLoop poll futureA futureB n c = some w) (hA : c.asyncTasks = [(pollA, futureA)])
    (hB : c.lastTasks = [(pollB, futureB)]) (hq : ∀ e ∈ w.polls, e.Quiet) :
    (∀ e ∈ w.polls, e.task = branchRoots pollA futureA pollB futureB e.branch) ∧
      (w.result = futureA ∧ Completed w.polls .a (pollA, futureA) ∨
        w.result = futureB ∧ Completed w.polls .b (pollB, futureB)) := by
  induction n generalizing c w with
  | zero => cases h
  | succ n ih =>
    cases anyLoop_turn h with
    | idle htasks => simp [hA] at htasks
    | doneA htasks hp =>
      obtain ⟨rfl, rfl⟩ : _ ∧ _ := by simpa [hA] using htasks
      exact ⟨by simp [branchRoots], .inl ⟨rfl, _, List.mem_singleton_self _, rfl, rfl, rfl⟩⟩
    | lost htasks hp hret hlast =>
      have hq₁ := hq _ List.mem_cons_self
      rw [Context.lastTasks_congr hq₁.2, hB] at hlast
      cases hlast
    | doneB htasks hp hret hlast hpB =>
      have hq₁ := hq _ List.mem_cons_self
      rw [Context.lastTasks_congr hq₁.2, hB] at hlast
      obtain ⟨rfl, rfl⟩ : _ ∧ _ := by simpa [hA] using htasks
      obtain ⟨rfl, rfl⟩ : _ ∧ _ := by simpa using hlast
      exact ⟨by simp [branchRoots], .inr ⟨rfl, _, List.mem_cons_of_mem _ (List.mem_singleton_self _), rfl, rfl, rfl⟩⟩
    | again htasks hp hret hlast hpB hretB hloop =>
      have hq₁ := hq _ List.mem_cons_self
      have hq₂ := hq _ (List.mem_cons_of_mem _ List.mem_cons_self)
      rw [Context.lastTasks_congr hq₁.2, hB] at hlast
      obtain ⟨rfl, rfl⟩ : _ ∧ _ := by simpa [hA] using htasks
      obtain ⟨rfl, rfl⟩ : _ ∧ _ := by simpa using hlast
      have hsub {polls : List (Polled F World)} (e₁ e₂ : Polled F World) : polls ⊆ e₁ :: e₂ :: polls :=
        fun e he => List.mem_cons_of_mem _ (List.mem_cons_of_mem _ he)
      obtain ⟨hroots, hresult⟩ := ih hloop (hq₂.1.trans (hq₁.1.trans hA))
        ((Context.lastTasks_congr hq₂.2).trans ((Context.lastTasks_congr hq₁.2).trans hB))
        (fun e he => hq e (hsub _ _ he))
      refine ⟨?_, ?_⟩
      · intro e he
        simp only [List.mem_cons] at he
        rcases he with rfl | rfl | he
        · rfl
        · rfl
        · exact hroots e he
      · rcases hresult with ⟨hw, hc⟩ | ⟨hw, hc⟩
        · exact .inl ⟨hw, hc.mono (hsub _ _)⟩
        · exact .inr ⟨hw, hc.mono (hsub _ _)⟩

/-- A quiet half that is not skipped polls the root of its branch, and is done exactly when
the root returned `1`. -/
theorem allHalf_quiet {branch : Branch} {tasks : Context F World → List (F × Int)}
    {pop : Context F World → Context F World} {c c₁ : Context F World} {done : Bool} {root : F × Int}
    {polls : List (Polled F World)} (h : allHalf poll branch tasks pop c = some (c₁, done, polls))
    (htasks : tasks c = [root])
    (hcongr : ∀ c c', c'.asyncTasks = c.asyncTasks → c'.asyncStacks = c.asyncStacks → tasks c' = tasks c)
    (hq : ∀ e ∈ polls, e.Quiet) :
    (∀ e ∈ polls, e.branch = branch ∧ e.task = root) ∧ (done = true → Completed polls branch root) ∧
      ∃ c', c'.asyncTasks = c.asyncTasks ∧ c'.asyncStacks = c.asyncStacks ∧
        c₁ = if done = true then pop c' else c' := by
  rcases allHalf_cases h with ⟨hnil, -⟩ | ⟨task, rest, c', ret, hcons, -, rfl, hdone, rfl⟩
  · simp [htasks] at hnil
  obtain ⟨rfl, rfl⟩ : _ ∧ _ := by simpa [htasks] using hcons
  obtain ⟨hq₁, hq₂⟩ := hq _ (List.mem_singleton_self _)
  have hsame : ¬(tasks c).length < (tasks c').length := by rw [hcongr c c' hq₁ hq₂]; exact lt_irrefl _
  have hiff : done = true ↔ ret = 1 := by rw [hdone, and_iff_left hsame]
  refine ⟨by simp, fun hd => ⟨_, List.mem_singleton_self _, rfl, rfl, hiff.mp hd⟩, c', hq₁, hq₂, ?_⟩
  simp only [hiff]

theorem allLoop_quiet (n : ℕ) {doneA doneB : Bool} {c : Context F World} {w : Waited F World}
    (h : allLoop poll futureB n doneA doneB c = some w)
    (hA : doneA = false → c.asyncTasks = [(pollA, futureA)])
    (hB : doneB = false → c.lastTasks = [(pollB, futureB)]) (hq : ∀ e ∈ w.polls, e.Quiet) :
    (∀ e ∈ w.polls, e.task = branchRoots pollA futureA pollB futureB e.branch) ∧
      (doneA = false → Completed w.polls .a (pollA, futureA)) ∧
      (doneB = false → Completed w.polls .b (pollB, futureB)) := by
  induction n generalizing c w doneA doneB with
  | zero => cases h
  | succ n ih =>
    rcases allLoop_cases h with ⟨rfl, rfl, rfl⟩ | ⟨c₁, doneA', polledA, c₂, doneB', polledB, w', hhA, hhB, hloop, rfl⟩
    · exact ⟨by simp, by simp, by simp⟩
    have hqA : ∀ e ∈ polledA, e.Quiet := fun e he => hq e (by simp [he])
    have hqB : ∀ e ∈ polledB, e.Quiet := fun e he => hq e (by simp [he])
    have hqW : ∀ e ∈ w'.polls, e.Quiet := fun e he => hq e (by simp [he])
    -- the first half touches neither the second branch nor, unless it is done, its own task
    obtain ⟨hrootA, hdoneA, hstacks, htasks⟩ :
        (∀ e ∈ polledA, e.branch = .a ∧ e.task = (pollA, futureA)) ∧
        (doneA = false → doneA' = true → Completed polledA .a (pollA, futureA)) ∧
        c₁.lastTasks = c.lastTasks ∧ (doneA' = false → c₁.asyncTasks = [(pollA, futureA)]) := by
      rcases hhA with ⟨rfl, rfl, rfl, rfl⟩ | ⟨rfl, hhA⟩
      · exact ⟨by simp, by simp, rfl, by simp⟩
      · obtain ⟨hroot, hdone, c', h₁, h₂, rfl⟩ :=
          allHalf_quiet hhA (hA rfl) (fun _ _ h₁ _ => h₁) hqA
        refine ⟨hroot, fun _ => hdone, ?_, fun hd => ?_⟩
        · split
          · exact Context.lastTasks_congr h₂
          · exact Context.lastTasks_congr h₂
        · rw [if_neg (by simp [hd]), h₁, hA rfl]
    obtain ⟨hrootB, hdoneB, htasks₂, hlast⟩ :
        (∀ e ∈ polledB, e.branch = .b ∧ e.task = (pollB, futureB)) ∧
        (doneB = false → doneB' = true → Completed polledB .b (pollB, futureB)) ∧
        c₂.asyncTasks = c₁.asyncTasks ∧ (doneB' = false → c₂.lastTasks = [(pollB, futureB)]) := by
      rcases hhB with ⟨rfl, rfl, rfl, rfl⟩ | ⟨rfl, hhB⟩
      · exact ⟨by simp, by simp, rfl, by simp⟩
      · obtain ⟨hroot, hdone, c', h₁, h₂, rfl⟩ :=
          allHalf_quiet hhB (hstacks.trans (hB rfl)) (fun _ _ _ h₂ => Context.lastTasks_congr h₂) hqB
        refine ⟨hroot, fun _ => hdone, ?_, fun hd => ?_⟩
        · split
          · rw [Context.asyncTasks_popLastTask, h₁]
          · exact h₁
        · rw [if_neg (by simp [hd]), Context.lastTasks_congr h₂, hstacks, hB rfl]
    obtain ⟨hroots, hcA, hcB⟩ := ih hloop (fun hd => htasks₂.trans (htasks hd)) hlast hqW
    refine ⟨?_, fun hd => ?_, fun hd => ?_⟩
    · intro e he
      simp only [List.mem_append] at he
      rcases he with (he | he) | he
      · rw [(hrootA e he).2, (hrootA e he).1]
        rfl
      · rw [(hrootB e he).2, (hrootB e he).1]
        rfl
      · exact hroots e he
    · cases hd' : doneA' with
      | true => exact (hdoneA hd hd').mono (fun e he => by simp [he])
      | false => exact (hcA hd').mono (fun e he => by simp [he])
    · cases hd' : doneB' with
      | true => exact (hdoneB hd hd').mono (fun e he => by simp [he])
      | false => exact (hcB hd').mono (fun e he => by simp [he])

end Quiet

/-- `wait_any` answers for the branches: it returns the handle of a branch whose own root
completed, and polls no child in the other branch's place. -/
def ReportsAny (w : Waited F World) (pollA : F) (futureA : Int) (pollB : F) (futureB : Int) : Prop :=
  (w.result = futureA ∧ Completed w.polls .a (pollA, futureA) ∨
    w.result = futureB ∧ Completed w.polls .b (pollB, futureB)) ∧
  OwnTasks w.polls (branchRoots pollA futureA pollB futureB)

def ReportsAll (w : Waited F World) (pollA : F) (futureA : Int) (pollB : F) (futureB : Int) : Prop :=
  Completed w.polls .a (pollA, futureA) ∧ Completed w.polls .b (pollB, futureB) ∧
  OwnTasks w.polls (branchRoots pollA futureA pollB futureB)

/-- A wait none of whose polls pushes a child or starts another wait answers for its
branches. -/
theorem quiet_waits_report_branches (code : F → Int → Script F World) (legacy : Bool) (fuel rounds : ℕ)
    (c : Context F World) (pollA pollB : F) (futureA futureB : Int) (hA : futureA ≠ null)
    (hB : futureB ≠ null) :
    (∀ w, asyncWaitAny (callPoll code legacy fuel) rounds c pollA futureA pollB futureB = some w →
      (∀ e ∈ w.polls, e.Quiet) → ReportsAny w pollA futureA pollB futureB) ∧
    (∀ w, asyncWaitAll (callPoll code legacy fuel) rounds c pollA futureA pollB futureB = some w →
      (∀ e ∈ w.polls, e.Quiet) → ReportsAll w pollA futureA pollB futureB) := by
  constructor
  · intro w h hq
    unfold asyncWaitAny at h
    rw [if_neg (by simp [hA]), if_neg (by simp [hA, hB]), Option.map_eq_some_iff] at h
    obtain ⟨w', hloop, rfl⟩ := h
    obtain ⟨hroots, hresult⟩ := anyLoop_quiet rounds hloop
      (show _ = [(pollA, futureA)] from rfl) (show _ = [(pollB, futureB)] from rfl) hq
    exact ⟨hresult, ownTasks_of_roots hroots⟩
  · intro w h hq
    unfold asyncWaitAll at h
    rw [if_neg (by simp [hA])] at h
    dsimp only at h
    rw [if_pos hA, if_pos hB, Option.map_eq_some_iff] at h
    obtain ⟨w', hloop, rfl⟩ := h
    have hnotA : decide (futureA = null) = false := decide_eq_false hA
    have hnotB : decide (futureB = null) = false := decide_eq_false hB
    obtain ⟨hroots, hcA, hcB⟩ := allLoop_quiet rounds hloop
      (fun _ => show _ = [(pollA, futureA)] from rfl) (fun _ => show _ = [(pollB, futureB)] from rfl) hq
    exact ⟨hcA hnotA, hcB hnotB, ownTasks_of_roots hroots⟩

/-- A root that completes on its first poll against one that never does. -/
def raceCode : Bool → Int → Script Bool Unit
  | true, _ => .ret 1
  | false, _ => .ret 0

theorem quiet_waits_report_branches_of_race :
    (∃ w, asyncWaitAny (callPoll raceCode false 1) 2 parentContext false 1 true 2 = some w ∧
      w.result = 2 ∧ ReportsAny w false 1 true 2) ∧
    ∃ w, asyncWaitAll (callPoll readyCode false 1) 2 parentContext false 1 true 2 = some w ∧
      ReportsAll w false 1 true 2 := by
  refine ⟨⟨_, rfl, rfl, ?_⟩, ⟨_, rfl, ?_⟩⟩
  · refine (quiet_waits_report_branches raceCode false 1 2 parentContext false true 1 2 (by decide)
      (by decide)).1 _ rfl (fun e he => ?_)
    simp only [List.mem_cons, List.not_mem_nil, or_false] at he
    rcases he with rfl | rfl
    · exact ⟨rfl, rfl⟩
    · exact ⟨rfl, rfl⟩
  · refine (quiet_waits_report_branches readyCode false 1 2 parentContext false true 1 2 (by decide)
      (by decide)).2 _ rfl (fun e he => ?_)
    simp only [List.nil_append, List.append_nil, List.cons_append, List.mem_cons, List.not_mem_nil,
      or_false] at he
    rcases he with rfl | rfl
    · exact ⟨rfl, rfl⟩
    · exact ⟨rfl, rfl⟩

/-- The first branch awaits a child that completes at once; the second never completes. -/
def childCode : Branch ⊕ Unit → Int → Script (Branch ⊕ Unit) Unit
  | .inl .a, _ => .push (.inr ()) 3 (.ret 0)
  | .inl .b, _ => .ret 0
  | .inr (), _ => .ret 1

theorem waitAny_reports_child :
    ¬ ∀ (code : Branch ⊕ Unit → Int → Script (Branch ⊕ Unit) Unit) (legacy : Bool) (fuel rounds : ℕ)
        (c : Context (Branch ⊕ Unit) Unit) (pollA pollB : Branch ⊕ Unit) (futureA futureB : Int),
      futureA ≠ null → futureB ≠ null →
      (∀ w, asyncWaitAny (callPoll code legacy fuel) rounds c pollA futureA pollB futureB = some w →
        ReportsAny w pollA futureA pollB futureB) ∧
      (∀ w, asyncWaitAll (callPoll code legacy fuel) rounds c pollA futureA pollB futureB = some w →
        ReportsAll w pollA futureA pollB futureB) := by
  intro hall
  have h := (hall childCode false 2 2 ⟨[], [], ()⟩ (.inl .a) (.inl .b) 1 2 (by decide) (by decide)).1 _ rfl
  rcases h.1 with ⟨-, e, he, hrest⟩ | ⟨hresult, -⟩
  · revert e
    decide
  · exact absurd hresult (by decide)

end Neutron
