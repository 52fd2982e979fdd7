import Mathlib.Data.BitVec
import Mathlib.Data.List.Basic
import Mathlib.Order.Basic
import Mathlib.Logic.Relation
import Mathlib.Tactic.Common

/-!
# The emitted code of `retry`

The blocks that `emit_retry` builds around the code of its body and of its catch block, and their run.
The body is a block of its own that is known by how each attempt ends: it falls through to the merge
block, it reaches the failure block with an exception pending, it jumps to the loop head, or control
leaves the statement. In an async body calls are not checked, so an attempt can go on past a call that
threw and end with the exception pending. The catch block is emitted while the loop targets of the
statement are pushed, so a `continue` in it jumps to the loop head as well.
-/

namespace Neutron.Retry

/-- The blocks of the statement and the places it goes on at. -/
inductive Label where
  | check
  | body
  | failure
  | clear
  | except
  | rethrow
  | catchBody
  | handler
  deriving DecidableEq

inductive Reg where
  | retryLeft
  | retryStill
  | retryDecrement
  | retryAgain
  | retryMsg
  | rethrowMsg
  deriving DecidableEq

/-- A message handle is `none` when it is null. -/
inductive Value where
  | int (i : BitVec 64)
  | bool (b : Bool)
  | message (m : Option String)
  deriving DecidableEq

inductive Instr where
  | load (dst : Reg)
  | subOne (dst src : Reg)
  | store (src : Reg)
  | positive (dst src : Reg)
  | exceptionClear
  | exceptionGetMessage (dst : Reg)
  | exceptionTakeMessage (dst : Reg)
  | throwAgain (src : Reg)
  | bindCatch (src : Reg)

inductive Exit where
  | br (target : Label)
  | condBr (condition : Reg) (thenTarget elseTarget : Label)

/-- The code of the blocks, as `emit_retry` builds them after the count is stored. -/
def emitRetry (hasCatch : Bool) : Label → Option (List Instr × Exit)
  | .check => some ([.load .retryLeft, .positive .retryStill .retryLeft],
      .condBr .retryStill .body .except)
  | .failure => some ([.load .retryLeft, .subOne .retryDecrement .retryLeft, .store .retryDecrement,
      .positive .retryAgain .retryDecrement], .condBr .retryAgain .clear .except)
  | .clear => some ([.exceptionClear], .br .check)
  | .except =>
    if hasCatch then
      -- the binding owns a clone of the message
      some ([.exceptionGetMessage .retryMsg, .exceptionClear, .bindCatch .retryMsg], .br .catchBody)
    else some ([], .br .rethrow)
  | .rethrow => some ([.exceptionTakeMessage .rethrowMsg, .throwAgain .rethrowMsg], .br .handler)
  | .body | .catchBody | .handler => none

/-- The counter slot, the pending slot of the runtime, the slot of the catch variable and the
registers. -/
structure Machine where
  remaining : BitVec 64
  pending : Option String
  caught : Option String
  regs : Reg → Value

def Machine.set (m : Machine) (r : Reg) (v : Value) : Machine :=
  { m with regs := fun r' => if r' = r then v else m.regs r' }

def Machine.int (m : Machine) (r : Reg) : BitVec 64 :=
  match m.regs r with
  | .int i => i
  | _ => 0

def Machine.message (m : Machine) (r : Reg) : Option String :=
  match m.regs r with
  | .message msg => msg
  | _ => none

def Machine.exec (m : Machine) : Instr → Machine
  | .load dst => m.set dst (.int m.remaining)
  | .subOne dst src => m.set dst (.int (m.int src - 1#64))
  | .store src => { m with remaining := m.int src }
  | .positive dst src => m.set dst (.bool ((0#64).slt (m.int src)))
  | .exceptionClear => { m with pending := none }
  | .exceptionGetMessage dst => m.set dst (.message m.pending)
  | .exceptionTakeMessage dst => { m.set dst (.message m.pending) with pending := none }
  -- a null message is thrown as the empty text
  | .throwAgain src => { m with pending := some ((m.message src).getD "") }
  | .bindCatch src => { m with caught := m.message src }

def Machine.target (m : Machine) : Exit → Label
  | .br t => t
  | .condBr c t e => if m.regs c = .bool true then t else e

/-- Where the code of an attempt goes on: at the merge block, at the loop head, or outside. -/
inductive Way where
  | completes
  | continues
  | leaves
  deriving DecidableEq

/-- How an attempt at the body ends: with no exception raised, at the failure block with one, or past a
call that threw, where no check saw it. -/
inductive Ending where
  | ends (way : Way)
  | throws (message : String)
  | unseen (message : String) (way : Way)
  deriving DecidableEq

/-- The attempt is the last one, whatever remains. -/
def Ending.Stops (e : Ending) : Prop := e = .ends .completes ∨ e = .ends .leaves

def Ending.Throws (e : Ending) : Prop := ∃ m, e = .throws m

/-- The attempt raises an exception. -/
def Ending.Raises (e : Ending) (m : String) : Prop := e = .throws m ∨ ∃ way, e = .unseen m way

/-- Control gets out of the statement with an exception pending. -/
def Ending.Escapes (e : Ending) : Prop := ∃ m, e = .unseen m .completes ∨ e = .unseen m .leaves

/-- The attempt goes to the loop head. -/
def Ending.Continues (e : Ending) : Prop := e = .ends .continues ∨ ∃ m, e = .unseen m .continues

/-- How the catch block ends: out of the statement, or at the loop head with what is pending then. -/
inductive CatchEnding where
  | ends
  | continues (pending : Option String)
  deriving DecidableEq

/-- How the attempts and the runs of the catch block end. -/
structure Behaviour where
  attempts : ℕ → Ending
  catches : ℕ → CatchEnding

/-- The attempts made and the messages handled so far: those the catch block ran with, or the one thrown
outward. -/
structure Config where
  label : Label
  machine : Machine
  attempts : ℕ
  handled : List (Option String)

def stepBody (c : Config) (pending : Option String) : Way → Config ⊕ (ℕ × List (Option String))
  | .completes | .leaves => .inr (c.attempts + 1, c.handled)
  | .continues => .inl { c with label := .check, machine := { c.machine with pending }, attempts := c.attempts + 1 }

def step (hasCatch : Bool) (ends : Behaviour) (c : Config) : Config ⊕ (ℕ × List (Option String)) :=
  match c.label with
  | .body =>
    match ends.attempts c.attempts with
    | .ends way => stepBody c c.machine.pending way
    | .throws message =>
      .inl { c with
        label := .failure, machine := { c.machine with pending := some message }, attempts := c.attempts + 1 }
    | .unseen message way => stepBody c (some message) way
  | .catchBody =>
    match ends.catches c.handled.length with
    | .ends => .inr (c.attempts, c.handled ++ [c.machine.caught])
    | .continues pending =>
      .inl { c with
        label := .check, machine := { c.machine with pending }, handled := c.handled ++ [c.machine.caught] }
  | .handler => .inr (c.attempts, c.handled ++ [c.machine.pending])
  | label =>
    match emitRetry hasCatch label with
    | some (code, exit) =>
      let m := code.foldl Machine.exec c.machine
      .inl { c with label := m.target exit, machine := m }
    | none => .inl c

def run (hasCatch : Bool) (ends : Behaviour) : ℕ → Config → Option (ℕ × List (Option String))
  | 0, _ => none
  | fuel + 1, c =>
    match step hasCatch ends c with
    | .inr result => some result
    | .inl next => run hasCatch ends fuel next

/-- The statement starts at its loop head with the count in the counter slot. -/
def start (count : BitVec 64) (pending : Option String) : Config :=
  ⟨.check, ⟨count, pending, none, fun _ => .int 0⟩, 0, []⟩

/-- The statement ends, after some attempts and some messages handled. -/
def Finishes (hasCatch : Bool) (ends : Behaviour) (c : Config) (attempts : ℕ)
    (handled : List (Option String)) : Prop :=
  ∃ fuel, run hasCatch ends fuel c = some (attempts, handled)

theorem Ending.cases (e : Ending) : e.Stops ∨ e.Escapes ∨ e.Continues ∨ e.Throws := by
  cases e with
  | ends way =>
    cases way with
    | completes => exact Or.inl (Or.inl rfl)
    | continues => exact Or.inr (Or.inr (Or.inl (Or.inl rfl)))
    | leaves => exact Or.inl (Or.inr rfl)
  | throws message => exact Or.inr (Or.inr (Or.inr ⟨message, rfl⟩))
  | unseen message way =>
    cases way with
    | completes => exact Or.inr (Or.inl ⟨message, Or.inl rfl⟩)
    | continues => exact Or.inr (Or.inr (Or.inl (Or.inr ⟨message, rfl⟩)))
    | leaves => exact Or.inr (Or.inl ⟨message, Or.inr rfl⟩)

variable {e : Ending}

theorem Ending.not_escapes_of_continues (h : e.Continues) : ¬ e.Escapes := by
  rintro ⟨m, rfl | rfl⟩
  · simp [Ending.Continues] at h
  · simp [Ending.Continues] at h

theorem Ending.not_escapes_of_throws (h : e.Throws) : ¬ e.Escapes := by
  obtain ⟨m, rfl⟩ := h
  simp [Ending.Escapes]

theorem Ending.not_stops_of_throws (h : e.Throws) : ¬ e.Stops := by
  obtain ⟨m, rfl⟩ := h
  simp [Ending.Stops]

theorem Ending.not_stops_of_escapes (h : e.Escapes) : ¬ e.Stops := by
  obtain ⟨m, rfl | rfl⟩ := h
  · simp [Ending.Stops]
  · simp [Ending.Stops]

theorem Ending.raises_of_escapes (h : e.Escapes) : ∃ message, e.Raises message := by
  obtain ⟨m, rfl | rfl⟩ := h
  · exact ⟨m, Or.inr ⟨_, rfl⟩⟩
  · exact ⟨m, Or.inr ⟨_, rfl⟩⟩

/-! ### Runs -/

variable {hasCatch : Bool} {ends : Behaviour}

variable {f : List (Option String)}

theorem Finishes.of_result {c : Config} {k : ℕ}
    (h : step hasCatch ends c = .inr (k, f)) : Finishes hasCatch ends c k f :=
  ⟨1, by simp only [run, h]⟩

theorem run_le {fuel fuel' : ℕ} {c : Config} {result : ℕ × List (Option String)} (hle : fuel ≤ fuel')
    (h : run hasCatch ends fuel c = some result) : run hasCatch ends fuel' c = some result := by
  induction fuel generalizing fuel' c with
  | zero => cases h
  | succ fuel ih =>
    obtain ⟨fuel', rfl⟩ : ∃ n, fuel' = n + 1 := ⟨fuel' - 1, by omega⟩
    cases hstep : step hasCatch ends c with
    | inr r =>
      simp only [run, hstep] at h ⊢
      exact h
    | inl next =>
      simp only [run, hstep] at h ⊢
      exact ih (by omega) h

theorem Finishes.unique {c : Config} {k k' : ℕ} {f f' : List (Option String)} (h : Finishes hasCatch ends c k f)
    (h' : Finishes hasCatch ends c k' f') : k = k' ∧ f = f' := by
  obtain ⟨fuel, h⟩ := h
  obtain ⟨fuel', h'⟩ := h'
  have hmax := run_le (le_max_left fuel fuel') h
  rw [run_le (le_max_right fuel fuel') h'] at hmax
  cases hmax
  exact ⟨rfl, rfl⟩

/-- One or more steps. -/
def Moves (hasCatch : Bool) (ends : Behaviour) : Config → Config → Prop :=
  Relation.TransGen fun c c' => step hasCatch ends c = .inl c'

theorem Moves.finishes {c c' : Config} {k : ℕ} (h : Moves hasCatch ends c c')
    (hfin : Finishes hasCatch ends c' k f) : Finishes hasCatch ends c k f := by
  induction h with
  | single hstep =>
    obtain ⟨fuel, hrun⟩ := hfin
    exact ⟨fuel + 1, by simp only [run, hstep, hrun]⟩
  | tail _ hstep ih =>
    obtain ⟨fuel, hrun⟩ := hfin
    exact ih ⟨fuel + 1, by simp only [run, hstep, hrun]⟩

/-- What is left of a run after some steps has less fuel. -/
theorem Moves.run {c c' : Config} {fuel : ℕ} {result : ℕ × List (Option String)} (h : Moves hasCatch ends c c')
    (hrun : run hasCatch ends fuel c = some result) :
    ∃ fuel' < fuel, run hasCatch ends fuel' c' = some result := by
  have hstep : ∀ {fuel a b}, step hasCatch ends a = .inl b →
      Retry.run hasCatch ends fuel a = some result →
        ∃ fuel' < fuel, Retry.run hasCatch ends fuel' b = some result := by
    intro fuel a b hab h
    cases fuel with
    | zero => cases h
    | succ fuel =>
      simp only [Retry.run, hab] at h
      exact ⟨fuel, Nat.lt_succ_self fuel, h⟩
  induction h with
  | single hab => exact hstep hab hrun
  | tail _ hab ih =>
    obtain ⟨fuel₁, hlt₁, h₁⟩ := ih
    obtain ⟨fuel₂, hlt₂, h₂⟩ := hstep hab h₁
    exact ⟨fuel₂, hlt₂.trans hlt₁, h₂⟩

/-- The attempts and the number of handled messages after a step. -/
def reached : Config ⊕ (ℕ × List (Option String)) → ℕ × ℕ
  | .inl c => (c.attempts, c.handled.length)
  | .inr result => (result.1, result.2.length)

theorem stepBody_mono (c : Config) (pending : Option String) (way : Way) :
    c.attempts ≤ (reached (stepBody c pending way)).1 ∧
      c.handled.length ≤ (reached (stepBody c pending way)).2 := by
  cases way with
  | completes => exact ⟨Nat.le_succ _, le_rfl⟩
  | continues => exact ⟨Nat.le_succ _, le_rfl⟩
  | leaves => exact ⟨Nat.le_succ _, le_rfl⟩

/-- A step takes back neither an attempt nor a handled message. -/
theorem step_mono (c : Config) : c.attempts ≤ (reached (step hasCatch ends c)).1 ∧
    c.handled.length ≤ (reached (step hasCatch ends c)).2 := by
  obtain ⟨label, m, k, h⟩ := c
  cases label with
  | body =>
    cases hend : ends.attempts k with
    | ends way =>
      rw [step, hend]
      exact stepBody_mono _ _ way
    | throws message =>
      rw [step, hend]
      exact ⟨Nat.le_succ _, le_rfl⟩
    | unseen message way =>
      rw [step, hend]
      exact stepBody_mono _ _ way
  | catchBody =>
    cases hend : ends.catches h.length with
    | ends =>
      rw [step, hend]
      exact ⟨le_rfl, by simp [reached]⟩
    | continues pending =>
      rw [step, hend]
      exact ⟨le_rfl, by simp [reached]⟩
  | handler => exact ⟨le_rfl, by simp [reached, step]⟩
  | except =>
    cases hasCatch with
    | true => exact ⟨le_rfl, le_rfl⟩
    | false => exact ⟨le_rfl, le_rfl⟩
  | _ => exact ⟨le_rfl, le_rfl⟩

theorem run_mono (fuel : ℕ) {c : Config} {n : ℕ}
    (hrun : run hasCatch ends fuel c = some (n, f)) : c.attempts ≤ n ∧ c.handled.length ≤ f.length := by
  induction fuel generalizing c with
  | zero => cases hrun
  | succ fuel ih =>
    have hmono : c.attempts ≤ (reached (step hasCatch ends c)).1 ∧
        c.handled.length ≤ (reached (step hasCatch ends c)).2 := step_mono c
    cases hstep : step hasCatch ends c with
    | inr result =>
      simp only [run, hstep, Option.some.injEq] at hrun
      rw [hstep, hrun] at hmono
      exact hmono
    | inl next =>
      simp only [run, hstep] at hrun
      rw [hstep] at hmono
      obtain ⟨hattempts, hhandled⟩ := ih hrun
      exact ⟨hmono.1.trans hattempts, hmono.2.trans hhandled⟩

/-! ### The blocks -/

theorem slt_zero_iff (i : BitVec 64) : (0#64).slt i = true ↔ 0 < i.toInt := by
  simp [BitVec.slt]

theorem toInt_sub_one {i : BitVec 64} (h : 0 < i.toInt) : (i - 1#64).toInt = i.toInt - 1 := by
  have hlt := BitVec.toInt_lt (x := i)
  have hone : (1#64).toInt = 1 := by decide
  rw [BitVec.toInt_sub, hone]
  apply Int.bmod_eq_of_le
  · omega
  · omega

section
variable (hasCatch ends)

/-- The loop head goes to the body while an attempt remains. -/
theorem step_check (m : Machine) (k : ℕ) (h : List (Option String)) :
    ∃ m', step hasCatch ends ⟨.check, m, k, h⟩ =
        .inl ⟨if 0 < m.remaining.toInt then .body else .except, m', k, h⟩ ∧
      m'.remaining = m.remaining ∧ m'.pending = m.pending := by
  have hslt := slt_zero_iff m.remaining
  refine ⟨(m.set .retryLeft (.int m.remaining)).set .retryStill
    (.bool ((0#64).slt m.remaining)), ?_, rfl, rfl⟩
  by_cases hpos : 0 < m.remaining.toInt
  · rw [if_pos hpos]
    rw [← hslt] at hpos
    simp [step, emitRetry, Machine.exec, Machine.target, Machine.set, Machine.int, hpos]
  · rw [if_neg hpos]
    rw [← hslt, Bool.not_eq_true] at hpos
    simp [step, emitRetry, Machine.exec, Machine.target, Machine.set, Machine.int, hpos]

/-- A failed attempt is counted. -/
theorem step_failure (m : Machine) (k : ℕ) (h : List (Option String)) {left : ℤ}
    (hleft : m.remaining.toInt = left) (hpos : 0 < left) :
    ∃ m', step hasCatch ends ⟨.failure, m, k, h⟩ =
        .inl ⟨if 1 < left then .clear else .except, m', k, h⟩ ∧
      m'.remaining.toInt = left - 1 ∧ m'.pending = m.pending := by
  subst hleft
  have hsub := toInt_sub_one hpos
  have hslt := slt_zero_iff (m.remaining - 1#64)
  let m₁ := (m.set .retryLeft (.int m.remaining)).set .retryDecrement (.int (m.remaining - 1#64))
  refine ⟨({ m₁ with remaining := m.remaining - 1#64 }).set .retryAgain
    (.bool ((0#64).slt (m.remaining - 1#64))), ?_, hsub, rfl⟩
  by_cases hmore : 1 < m.remaining.toInt
  · have hagain : (0#64).slt (m.remaining - 1#64) = true := hslt.2 (by omega)
    rw [if_pos hmore]
    simp [step, emitRetry, Machine.exec, Machine.target, Machine.set, Machine.int, m₁, hagain]
  · have hagain : (0#64).slt (m.remaining - 1#64) = false := by
      rw [← Bool.not_eq_true, hslt]
      omega
    rw [if_neg hmore]
    simp [step, emitRetry, Machine.exec, Machine.target, Machine.set, Machine.int, m₁, hagain]

variable {m : Machine} {k : ℕ} {h : List (Option String)}

theorem moves_catch (hcatch : hasCatch = true) :
    ∃ m', Moves hasCatch ends ⟨.except, m, k, h⟩ ⟨.catchBody, m', k, h⟩ ∧ m'.caught = m.pending ∧
      m'.remaining = m.remaining := by
  subst hcatch
  exact ⟨_, .single rfl, rfl, rfl⟩

theorem finishes_rethrow (hcatch : hasCatch = false) :
    Finishes hasCatch ends ⟨.except, m, k, h⟩ k (h ++ [some (m.pending.getD "")]) := by
  subst hcatch
  refine ⟨3, ?_⟩
  simp [run, step, emitRetry, Machine.exec, Machine.target, Machine.set, Machine.message]

/-- From the exhaustion block the statement ends with what is pending: rethrown, or in the catch block
unless that starts over. -/
theorem finishes_except (hends : hasCatch = true → ends.catches 0 = .ends) {message : String}
    (hpending : m.pending = some message) :
    Finishes hasCatch ends ⟨.except, m, k, []⟩ k [some message] := by
  cases hcatch : hasCatch with
  | true =>
    obtain ⟨m', hmoves, hcaught, -⟩ := moves_catch true ends (m := m) (k := k) (h := []) rfl
    apply hmoves.finishes
    apply Finishes.of_result
    simp [step, hends hcatch, hcaught, hpending]
  | false =>
    have hfin := finishes_rethrow false ends (m := m) (k := k) (h := []) rfl
    rw [hpending] at hfin
    exact hfin

variable {f : List (Option String)}

/-- A run of the catch block ends the statement or comes to the loop head; either way it has handled a
message. -/
theorem handled_of_catch {fuel n : ℕ}
    (hrun : run hasCatch ends fuel ⟨.catchBody, m, k, h⟩ = some (n, f)) : h.length < f.length := by
  cases fuel with
  | zero => cases hrun
  | succ fuel =>
    cases hends : ends.catches h.length with
    | ends =>
      simp only [run, step, hends, Option.some.injEq, Prod.mk.injEq] at hrun
      rw [← hrun.2, List.length_append]
      exact Nat.lt_succ_self _
    | continues pending =>
      simp only [run, step, hends] at hrun
      have hmono := (run_mono fuel hrun).2
      rw [List.length_append] at hmono
      exact hmono

/-- From the exhaustion block a message is handled. -/
theorem handled_of_except {n : ℕ}
    (hfin : Finishes hasCatch ends ⟨.except, m, k, h⟩ n f) : h.length < f.length := by
  cases hcatch : hasCatch with
  | true =>
    obtain ⟨m', hmoves, -, -⟩ := moves_catch hasCatch ends (m := m) (k := k) (h := h) hcatch
    obtain ⟨fuel, hrun⟩ := hfin
    obtain ⟨fuel', -, hrun'⟩ := hmoves.run hrun
    exact handled_of_catch hasCatch ends hrun'
  | false =>
    have hfin' := finishes_rethrow hasCatch ends (m := m) (k := k) (h := h) hcatch
    rw [← (hfin'.unique hfin).2, List.length_append]
    exact Nat.lt_succ_self _

/-- The loop head without an attempt left goes to the exhaustion block. -/
theorem handled_of_exhausted (hrem : ¬ 0 < m.remaining.toInt) {n : ℕ}
    (hfin : Finishes hasCatch ends ⟨.check, m, k, h⟩ n f) : h.length < f.length := by
  obtain ⟨m', hstep, -, -⟩ := step_check hasCatch ends m k h
  rw [if_neg hrem] at hstep
  have hmoves : Moves hasCatch ends ⟨.check, m, k, h⟩ ⟨.except, m', k, h⟩ := .single hstep
  obtain ⟨fuel, hrun⟩ := hfin
  obtain ⟨fuel', -, hrun'⟩ := hmoves.run hrun
  exact handled_of_except hasCatch ends ⟨fuel', hrun'⟩

/-- A catch block that starts over comes to the exhaustion block once more, so it handles more than one
message. -/
theorem catches_of_except (hrem : ¬ 0 < m.remaining.toInt) {n : ℕ}
    (hfin : Finishes hasCatch ends ⟨.except, m, k, []⟩ n f) (hlength : f.length = 1)
    (hcatch : hasCatch = true) : ends.catches 0 = .ends := by
  cases hends : ends.catches 0 with
  | ends => rfl
  | continues pending =>
    obtain ⟨m', hmoves, -, hrem'⟩ := moves_catch hasCatch ends (m := m) (k := k) (h := []) hcatch
    have hover : step hasCatch ends ⟨.catchBody, m', k, []⟩ =
        .inl ⟨.check, { m' with pending := pending }, k, [m'.caught]⟩ := by
      simp only [step, List.length_nil, hends, List.nil_append]
    obtain ⟨fuel, hrun⟩ := hfin
    have hagain : Moves hasCatch ends ⟨.except, m, k, []⟩ ⟨.check, { m' with pending := pending }, k, [m'.caught]⟩ :=
      hmoves.tail hover
    obtain ⟨fuel', -, hrun'⟩ := hagain.run hrun
    have hmore := handled_of_exhausted hasCatch ends (by rwa [← hrem'] at hrem) ⟨fuel', hrun'⟩
    rw [hlength] at hmore
    exact absurd hmore (lt_irrefl _)

/-! ### Attempts -/

theorem moves_body (hpos : 0 < m.remaining.toInt) :
    ∃ m', Moves hasCatch ends ⟨.check, m, k, h⟩ ⟨.body, m', k, h⟩ ∧ m'.remaining = m.remaining := by
  obtain ⟨m', hstep, hrem, -⟩ := step_check hasCatch ends m k h
  rw [if_pos hpos] at hstep
  exact ⟨m', .single hstep, hrem⟩

theorem finishes_of_stops (hpos : 0 < m.remaining.toInt) (hstops : (ends.attempts k).Stops) :
    Finishes hasCatch ends ⟨.check, m, k, h⟩ (k + 1) h := by
  obtain ⟨m', hmoves, -⟩ := moves_body hasCatch ends (k := k) (h := h) hpos
  apply hmoves.finishes
  rcases hstops with hend | hend
  · exact .of_result (by simp only [step, hend, stepBody])
  · exact .of_result (by simp only [step, hend, stepBody])

theorem finishes_of_escapes (hpos : 0 < m.remaining.toInt) (hescapes : (ends.attempts k).Escapes) :
    Finishes hasCatch ends ⟨.check, m, k, h⟩ (k + 1) h := by
  obtain ⟨m', hmoves, -⟩ := moves_body hasCatch ends (k := k) (h := h) hpos
  apply hmoves.finishes
  rcases hescapes with ⟨message, hend | hend⟩
  · exact .of_result (by simp only [step, hend, stepBody])
  · exact .of_result (by simp only [step, hend, stepBody])

/-- An attempt that ends in `continue` is not counted. -/
theorem moves_of_continues (hpos : 0 < m.remaining.toInt)
    (hends : (ends.attempts k).Continues) :
    ∃ m', Moves hasCatch ends ⟨.check, m, k, h⟩ ⟨.check, m', k + 1, h⟩ ∧
      m'.remaining = m.remaining := by
  obtain ⟨m', hmoves, hrem⟩ := moves_body hasCatch ends (k := k) (h := h) hpos
  rcases hends with hend | ⟨message, hend⟩
  · exact ⟨m', hmoves.tail (by simp only [step, hend, stepBody]), hrem⟩
  · exact ⟨{ m' with pending := some message }, hmoves.tail (by simp only [step, hend, stepBody]), hrem⟩

theorem moves_failure (hpos : 0 < m.remaining.toInt) {message : String}
    (hends : ends.attempts k = .throws message) :
    ∃ m', Moves hasCatch ends ⟨.check, m, k, h⟩
        ⟨if 1 < m.remaining.toInt then .clear else .except, m', k + 1, h⟩ ∧
      m'.remaining.toInt = m.remaining.toInt - 1 ∧ m'.pending = some message := by
  obtain ⟨m₁, hmoves, hrem⟩ := moves_body hasCatch ends (k := k) (h := h) hpos
  have hfail : step hasCatch ends ⟨.body, m₁, k, h⟩ =
      .inl ⟨.failure, { m₁ with pending := some message }, k + 1, h⟩ := by
    simp only [step, hends]
  obtain ⟨m', hstep, hdec, hpend⟩ := step_failure hasCatch ends
    { m₁ with pending := some message } (k + 1) h (congrArg BitVec.toInt hrem) hpos
  exact ⟨m', (hmoves.tail hfail).tail hstep, hdec, hpend⟩

theorem moves_of_throws (hpos : 1 < m.remaining.toInt) (hthrows : (ends.attempts k).Throws) :
    ∃ m', Moves hasCatch ends ⟨.check, m, k, h⟩ ⟨.check, m', k + 1, h⟩ ∧
      m'.remaining.toInt = m.remaining.toInt - 1 := by
  obtain ⟨message, hends⟩ := hthrows
  obtain ⟨m₁, hmoves, hdec, -⟩ :=
    moves_failure hasCatch ends (m := m) (h := h) (by omega) hends
  rw [if_pos hpos] at hmoves
  exact ⟨{ m₁ with pending := none }, hmoves.tail rfl, hdec⟩

/-- The last failed attempt comes to the exhaustion block. -/
theorem moves_of_last_throws (hlast : m.remaining.toInt = 1) {message : String}
    (hends : ends.attempts k = .throws message) :
    ∃ m', Moves hasCatch ends ⟨.check, m, k, h⟩ ⟨.except, m', k + 1, h⟩ ∧ m'.pending = some message ∧
      ¬ 0 < m'.remaining.toInt := by
  obtain ⟨m₁, hmoves, hdec, hpend⟩ :=
    moves_failure hasCatch ends (m := m) (h := h) (by omega) hends
  rw [if_neg (by omega)] at hmoves
  exact ⟨m₁, hmoves, hpend, by omega⟩

end

/-! ### Whole runs -/

section
variable (hasCatch)

/-- Attempts that go on while attempts remain, up to one that stops. -/
theorem finishes_of_first_stop {m : Machine} {k d : ℕ} (hpos : (d : ℤ) < m.remaining.toInt)
    (hbefore : ∀ i < d, ¬ (ends.attempts (k + i)).Stops ∧ ¬ (ends.attempts (k + i)).Escapes)
    (hstops : (ends.attempts (k + d)).Stops) :
    Finishes hasCatch ends ⟨.check, m, k, []⟩ (k + d + 1) [] := by
  induction d generalizing m k with
  | zero => exact finishes_of_stops hasCatch ends hpos hstops
  | succ d ih =>
    have hrest : ∀ m' : Machine, (d : ℤ) < m'.remaining.toInt →
        Finishes hasCatch ends ⟨.check, m', k + 1, []⟩ (k + (d + 1) + 1) [] := by
      intro m' hpos'
      have h := ih (k := k + 1) hpos' (fun i hi => ?_) ?_
      · rwa [show k + 1 + d + 1 = k + (d + 1) + 1 by omega] at h
      · rw [show k + 1 + i = k + (i + 1) by omega]
        exact hbefore (i + 1) (by omega)
      · rwa [show k + 1 + d = k + (d + 1) by omega]
    obtain ⟨hstop, hescape⟩ := hbefore 0 (by omega)
    rcases (ends.attempts k).cases with h | h | h | h
    · exact absurd h hstop
    · exact absurd h hescape
    · obtain ⟨m', hmoves, hrem⟩ := moves_of_continues hasCatch ends (m := m) (by omega) h
      exact hmoves.finishes (hrest m' (by rw [hrem]; omega))
    · obtain ⟨m', hmoves, hdec⟩ := moves_of_throws hasCatch ends (m := m) (by omega) h
      exact hmoves.finishes (hrest m' (by omega))

/-- Attempts that all throw, until none remains. -/
theorem finishes_of_all_throw {m : Machine} {k d : ℕ} (hrem : m.remaining.toInt = d + 1)
    (hthrows : ∀ i ≤ d, (ends.attempts (k + i)).Throws)
    (hcatch : hasCatch = true → ends.catches 0 = .ends) :
    ∃ message, ends.attempts (k + d) = .throws message ∧
      Finishes hasCatch ends ⟨.check, m, k, []⟩ (k + d + 1) [some message] := by
  induction d generalizing m k with
  | zero =>
    obtain ⟨message, hends⟩ := hthrows 0 (by omega)
    obtain ⟨m', hmoves, hpending, -⟩ :=
      moves_of_last_throws hasCatch ends (m := m) (h := []) (by omega) hends
    exact ⟨message, hends, hmoves.finishes (finishes_except hasCatch ends hcatch hpending)⟩
  | succ d ih =>
    obtain ⟨m', hmoves, hdec⟩ :=
      moves_of_throws hasCatch ends (m := m) (h := []) (by omega) (hthrows 0 (by omega))
    obtain ⟨message, hends, hfin⟩ := ih (k := k + 1) (by omega) (m := m') (fun i hi => by
      rw [show k + 1 + i = k + (i + 1) by omega]
      exact hthrows (i + 1) (by omega))
    rw [show k + 1 + d = k + (d + 1) by omega] at hends hfin
    exact ⟨message, hends, hmoves.finishes hfin⟩

end

/-- What a run of the attempts from `k` on, with `left` of them to count, that ends after `n` attempts
with the messages `f` handled comes from. -/
inductive Outcome (hasCatch : Bool) (ends : Behaviour) (k : ℕ) (left : ℤ) (n : ℕ) (f : List (Option String)) :
    Prop
  | stopped (j : ℕ) (hj : k ≤ j) (hlast : j + 1 = n) (hstops : (ends.attempts j).Stops)
      (hbefore : ∀ i, k ≤ i → i < j → ¬ (ends.attempts i).Escapes)
  | escaped (j : ℕ) (hj : k ≤ j) (hlast : j + 1 = n) (hescapes : (ends.attempts j).Escapes) (hnone : f = [])
  | exhausted (hle : left ≤ n - k)
      (hthrows : left = n - k → (∀ j, k ≤ j → j < n → (ends.attempts j).Throws) ∧
        (f.length = 1 → hasCatch = true → ends.catches 0 = .ends))

theorem run_inv (fuel : ℕ) {m : Machine} {k n : ℕ} (hpos : 0 < m.remaining.toInt)
    (hrun : run hasCatch ends fuel ⟨.check, m, k, []⟩ = some (n, f)) :
    Outcome hasCatch ends k m.remaining.toInt n f := by
  induction fuel using Nat.strong_induction_on generalizing m k with
  | _ fuel ih =>
    rcases (ends.attempts k).cases with hend | hend | hend | hend
    · obtain ⟨hn, -⟩ := (finishes_of_stops hasCatch ends hpos hend).unique ⟨fuel, hrun⟩
      exact .stopped k le_rfl hn hend fun i hi hik => absurd hik (by omega)
    · obtain ⟨hn, hnone⟩ := (finishes_of_escapes hasCatch ends hpos hend).unique ⟨fuel, hrun⟩
      exact .escaped k le_rfl hn hend hnone.symm
    · -- an attempt that goes to the loop head is made and not counted
      obtain ⟨m', hmoves, hrem⟩ := moves_of_continues hasCatch ends hpos hend
      obtain ⟨fuel', hlt, hrun'⟩ := hmoves.run hrun
      cases ih fuel' hlt (by rwa [hrem]) hrun' with
      | stopped j hj hlast hstops hbefore =>
        refine .stopped j (by omega) hlast hstops fun i hi hij => ?_
        rcases hi.eq_or_lt with rfl | hlt
        · exact Ending.not_escapes_of_continues hend
        · exact hbefore i hlt hij
      | escaped j hj hlast hescapes hnone => exact .escaped j (by omega) hlast hescapes hnone
      | exhausted hle _ =>
        rw [hrem] at hle
        exact .exhausted (by push_cast at hle; omega) fun heq => by push_cast at hle; omega
    · by_cases hlast : m.remaining.toInt = 1
      · obtain ⟨message, hends⟩ := hend
        obtain ⟨m', hmoves, -, hrem⟩ := moves_of_last_throws hasCatch ends (h := []) hlast hends
        obtain ⟨fuel', -, hrun'⟩ := hmoves.run hrun
        have hmono : k + 1 ≤ n := (run_mono fuel' hrun').1
        refine .exhausted (by omega) fun heq => ⟨fun j hj hjn => ?_, fun hlength hcatch => ?_⟩
        · rw [show j = k by omega]
          exact ⟨message, hends⟩
        · exact catches_of_except hasCatch ends hrem ⟨fuel', hrun'⟩ hlength hcatch
      · obtain ⟨m', hmoves, hdec⟩ := moves_of_throws hasCatch ends (m := m) (by omega) hend
        obtain ⟨fuel', hlt, hrun'⟩ := hmoves.run hrun
        cases ih fuel' hlt (by omega) hrun' with
        | stopped j hj hlast hstops hbefore =>
          refine .stopped j (by omega) hlast hstops fun i hi hij => ?_
          rcases hi.eq_or_lt with rfl | hlt
          · exact Ending.not_escapes_of_throws hend
          · exact hbefore i hlt hij
        | escaped j hj hlast hescapes hnone => exact .escaped j (by omega) hlast hescapes hnone
        | exhausted hle hthrows =>
          push_cast at hle hthrows
          refine .exhausted (by omega) fun heq => ?_
          obtain ⟨hall, hcatch⟩ := hthrows (by omega)
          refine ⟨fun j hj hjn => ?_, hcatch⟩
          rcases hj.eq_or_lt with rfl | hlt
          · exact hend
          · exact hall j hlt hjn

/-! ### Up to `count` attempts -/

/-- The statement ends; it makes attempts until the first one that stops and at most as many as the
count says; an exception is handled, once, exactly when an attempt raised one and none remained, and it
is that of the last attempt. -/
def RunsUpTo (hasCatch : Bool) (ends : Behaviour) (count : BitVec 64) (pending : Option String) : Prop :=
  ∃ n handled, Finishes hasCatch ends (start count pending) n handled ∧
    (n : ℤ) ≤ max count.toInt 0 ∧
    (∀ i, i + 1 < n → ¬ (ends.attempts i).Stops) ∧
    ((n : ℤ) < max count.toInt 0 → ∃ i, i + 1 = n ∧ (ends.attempts i).Stops) ∧
    (handled ≠ [] ↔ (n : ℤ) = max count.toInt 0 ∧ (∃ i < n, ∃ message, (ends.attempts i).Raises message) ∧
      ∀ i < n, ¬ (ends.attempts i).Stops) ∧
    (handled ≠ [] → ∃ i message, i + 1 = n ∧ (ends.attempts i).Raises message ∧ handled = [some message])

/-- The count is positive, and one of the first `count` attempts stops with none before it out with an
exception that no check saw, or all of them throw and the catch block does not start over. -/
def Counted (hasCatch : Bool) (ends : Behaviour) (count : BitVec 64) : Prop :=
  0 < count.toInt ∧
    ((∃ i : ℕ, (i : ℤ) < count.toInt ∧ (ends.attempts i).Stops ∧ ∀ j < i, ¬ (ends.attempts j).Escapes) ∨
      (∀ i : ℕ, (i : ℤ) < count.toInt → (ends.attempts i).Throws) ∧
        (hasCatch = true → ends.catches 0 = .ends))

variable {pending : Option String}

theorem runsUpTo_of_stop {count : BitVec 64} (hstop : ∃ i : ℕ, (i : ℤ) < count.toInt ∧ (ends.attempts i).Stops ∧
      ∀ j < i, ¬ (ends.attempts j).Escapes) :
    RunsUpTo hasCatch ends count pending := by
  classical
  obtain ⟨hd, hstops, hescapes⟩ := Nat.find_spec hstop
  have hbefore : ∀ i < Nat.find hstop, ¬ (ends.attempts i).Stops := by
    intro i hi hs
    exact Nat.find_min hstop hi ⟨by omega, hs, fun j hj => hescapes j (by omega)⟩
  generalize Nat.find hstop = d at hd hstops hescapes hbefore
  have hfin : Finishes hasCatch ends (start count pending) (d + 1) [] := by
    have hstops' : (ends.attempts (0 + d)).Stops := by rwa [Nat.zero_add]
    have hbefore' : ∀ i < d, ¬ (ends.attempts (0 + i)).Stops ∧ ¬ (ends.attempts (0 + i)).Escapes := by
      intro i hi
      rw [Nat.zero_add]
      exact ⟨hbefore i hi, hescapes i hi⟩
    have h := finishes_of_first_stop hasCatch (m := (start count pending).machine) hd hbefore' hstops'
    rwa [Nat.zero_add] at h
  refine ⟨d + 1, [], hfin, by push_cast; omega, fun i hi => hbefore i (by omega),
    fun _ => ⟨d, rfl, hstops⟩, ?_, fun hne => absurd rfl hne⟩
  constructor
  · intro hne
    exact absurd rfl hne
  · rintro ⟨-, -, hnone⟩
    exact absurd hstops (hnone d (by omega))

theorem runsUpTo_of_throws {count : BitVec 64} (hpos : 0 < count.toInt)
    (hall : ∀ i : ℕ, (i : ℤ) < count.toInt → (ends.attempts i).Throws)
    (hcatch : hasCatch = true → ends.catches 0 = .ends) :
    RunsUpTo hasCatch ends count pending := by
  obtain ⟨d, hd⟩ : ∃ d : ℕ, count.toInt = d + 1 := ⟨(count.toInt - 1).toNat, by omega⟩
  obtain ⟨message, hends, hfin⟩ := finishes_of_all_throw hasCatch (k := 0)
    (m := (start count pending).machine) (d := d) hd (fun i hi => hall _ (by push_cast; omega)) hcatch
  rw [Nat.zero_add] at hends hfin
  have hnostop : ∀ i : ℕ, i < d + 1 → ¬ (ends.attempts i).Stops :=
    fun i hi => Ending.not_stops_of_throws (hall i (by omega))
  refine ⟨d + 1, [some message], hfin, by push_cast; omega,
    fun i hi => hnostop i (by omega), fun h => by push_cast at h; omega, ?_, ?_⟩
  · constructor
    · intro _
      exact ⟨by push_cast; omega, ⟨d, by omega, message, Or.inl hends⟩, hnostop⟩
    · intro _
      exact List.cons_ne_nil _ _
  · intro _
    exact ⟨d, message, rfl, Or.inl hends, rfl⟩

theorem counted_of_runsUpTo {count : BitVec 64}
    (h : RunsUpTo hasCatch ends count pending) : Counted hasCatch ends count := by
  obtain ⟨n, f, hfin, hbound, hfirst, hshort, hhandled, hlastHandled⟩ := h
  by_cases hpos : 0 < count.toInt
  · rw [max_eq_left hpos.le] at hbound hshort hhandled
    refine ⟨hpos, ?_⟩
    obtain ⟨fuel, hrun⟩ := hfin
    cases run_inv fuel (m := (start count pending).machine) hpos hrun with
    | stopped j hj hlast hstops hbefore =>
      exact Or.inl ⟨j, by omega, hstops, fun i hi => hbefore i (Nat.zero_le i) hi⟩
    | escaped j hj hlast hescapes hnone =>
      -- nothing is handled, so one of the attempts made stops, and only the last one could
      have hnostop : ∀ i < n, ¬ (ends.attempts i).Stops := by
        intro i hi
        rcases Nat.lt_or_ge (i + 1) n with hlt | hge
        · exact hfirst i hlt
        · rw [show i = j by omega]
          exact Ending.not_stops_of_escapes hescapes
      rcases hbound.lt_or_eq with hlt | heq
      · obtain ⟨i, hi, hstops⟩ := hshort hlt
        exact absurd hstops (hnostop i (by omega))
      · have hraises := Ending.raises_of_escapes hescapes
        exact absurd hnone (hhandled.2 ⟨heq, ⟨j, by omega, hraises⟩, hnostop⟩)
    | exhausted hle hthrows =>
      have hcount : count.toInt = (n : ℤ) - (0 : ℕ) := le_antisymm hle (by simpa using hbound)
      obtain ⟨hall, hcatch⟩ := hthrows hcount
      have hn : (n : ℤ) = count.toInt := by rw [hcount, Nat.cast_zero, sub_zero]
      obtain ⟨message, hlast⟩ := hall 0 le_rfl (by omega)
      have hsome := hhandled.2 ⟨hn, ⟨0, by omega, message, Or.inl hlast⟩,
        fun i hi => Ending.not_stops_of_throws (hall i (Nat.zero_le i) hi)⟩
      obtain ⟨i, last, -, -, hone⟩ := hlastHandled hsome
      exact Or.inr ⟨fun i hi => hall i (Nat.zero_le i) (by omega), hcatch (by rw [hone, List.length_singleton])⟩
  · have hsome := handled_of_exhausted hasCatch ends (m := (start count pending).machine) hpos hfin
    obtain ⟨hn, ⟨i, hi, -⟩, -⟩ := hhandled.1 (List.ne_nil_of_length_pos hsome)
    rw [max_eq_right (not_lt.1 hpos)] at hn
    exact absurd hi (by omega)

/-- `retry 1` with a body whose first attempt ends in `continue` and whose second completes. -/
def continuedOnce : Behaviour where
  attempts i := if i = 0 then .ends .continues else .ends .completes
  catches _ := .ends

end Neutron.Retry
