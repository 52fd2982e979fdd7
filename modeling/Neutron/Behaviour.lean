import Mathlib.Order.Basic

/-!
# Behaviours of structured control flow

A behaviour relates a start state to the outcomes and states it may end with. The
combinators are sequencing, choice, exception handlers, code that runs on every way out, and
loops. `Meets` is the partial-correctness judgement; each combinator has its rule.
-/

namespace Neutron

inductive Outcome where
  | normal
  | broke
  | continued
  | returned
  | threw
  | violated
  deriving DecidableEq

variable {S : Type*}

abbrev Behaviour (S : Type*) := S → Outcome → S → Prop

namespace Behaviour

def done (o : Outcome) : Behaviour S := fun s o' s' => o' = o ∧ s' = s

def seq (p q : Behaviour S) : Behaviour S := fun s o s' =>
  (∃ m, p s .normal m ∧ q m o s') ∨ (o ≠ .normal ∧ p s o s')

def either (p q : Behaviour S) : Behaviour S := fun s o s' => p s o s' ∨ q s o s'

def handle (p q : Behaviour S) : Behaviour S := fun s o s' =>
  (∃ m, p s .threw m ∧ q m o s') ∨ (o ≠ .threw ∧ p s o s')

/-- `q` runs on every way out of `p`; an abrupt outcome of its own replaces that of `p`. -/
def ensure (p q : Behaviour S) : Behaviour S := fun s o s' =>
  (o = .violated ∧ p s .violated s') ∨
    ∃ o₁ m o₂, o₁ ≠ .violated ∧ p s o₁ m ∧ q m o₂ s' ∧ o = if o₂ = .normal then o₁ else o₂

/-- The outcomes of `p` renamed. -/
def rename (r : Outcome → Outcome → Prop) (p : Behaviour S) : Behaviour S := fun s o s' =>
  ∃ o₀, p s o₀ s' ∧ r o₀ o

/-- Only the executions of `p` that satisfy `c`. -/
def only (c : S → Outcome → S → Prop) (p : Behaviour S) : Behaviour S := fun s o s' =>
  p s o s' ∧ c s o s'

/-- A behaviour that remembers the state it starts from. -/
def since (p : S → Behaviour S) : Behaviour S := fun s o s' => p s s o s'

/-- A run on a state of its own: only a violation of it is seen from outside. -/
def apart (start : S) (p : Behaviour S) : Behaviour S := fun s o s' =>
  s' = s ∧ (o = .normal ∨ (o = .violated ∧ ∃ m, p start .violated m))

/-- Rounds until one breaks off. -/
inductive Loop (round : Behaviour S) : Behaviour S
  | again {s m s' : S} {o : Outcome} (hr : round s .normal m) (hl : Loop round m o s') :
      Loop round s o s'
  | stop {s s' : S} (hr : round s .broke s') : Loop round s .normal s'
  | exit {s s' : S} {o : Outcome} (ho : o ≠ .normal ∧ o ≠ .broke ∧ o ≠ .continued)
      (hr : round s o s') : Loop round s o s'

/-- A behaviour without jumps: it falls through, throws, returns or violates. -/
def Calm (p : Behaviour S) : Prop := ∀ s o s', p s o s' → o ≠ .broke ∧ o ≠ .continued

namespace Calm

variable {p q : Behaviour S}

theorem done {o : Outcome} (h : o ≠ .broke ∧ o ≠ .continued) :
    Calm (Behaviour.done o : Behaviour S) := by
  rintro s o' s' ⟨rfl, -⟩
  exact h

theorem seq (hp : Calm p) (hq : Calm q) : Calm (p.seq q) := by
  rintro s o s' (⟨m, -, h⟩ | ⟨-, h⟩)
  · exact hq m o s' h
  · exact hp s o s' h

theorem either (hp : Calm p) (hq : Calm q) : Calm (p.either q) := by
  rintro s o s' (h | h)
  · exact hp s o s' h
  · exact hq s o s' h

theorem apart (start : S) : Calm (Behaviour.apart start p) := by
  rintro s o s' ⟨-, rfl | ⟨rfl, -⟩⟩
  · decide
  · decide

end Calm

/-! ### Behaviours that never fall through -/

def NeverNormal (p : Behaviour S) : Prop := ∀ s s', ¬p s .normal s'

namespace NeverNormal

variable {p q : Behaviour S}

theorem done {o : Outcome} (h : o ≠ .normal) : NeverNormal (Behaviour.done o : Behaviour S) :=
  fun _ _ hd => h hd.1.symm

theorem seq_left (hp : NeverNormal p) : NeverNormal (p.seq q) := by
  rintro s s' (⟨m, h, -⟩ | ⟨h, -⟩)
  · exact hp s m h
  · exact h rfl

theorem seq_right (hq : NeverNormal q) : NeverNormal (p.seq q) := by
  rintro s s' (⟨m, -, h⟩ | ⟨h, -⟩)
  · exact hq m s' h
  · exact h rfl

theorem either (hp : NeverNormal p) (hq : NeverNormal q) : NeverNormal (p.either q) := by
  rintro s s' (h | h)
  · exact hp s s' h
  · exact hq s s' h

theorem ensure (h : NeverNormal p ∨ NeverNormal q) : NeverNormal (p.ensure q) := by
  rintro s s' (⟨h, -⟩ | ⟨o₁, m, o₂, -, hp, hq, ho⟩)
  · cases h
  · split at ho
    · rename_i hnormal
      subst hnormal ho
      rcases h with h | h
      · exact h s m hp
      · exact h m s' hq
    · rename_i hnormal
      exact hnormal ho.symm

theorem handle (hp : NeverNormal p) (hq : NeverNormal q) : NeverNormal (p.handle q) := by
  rintro s s' (⟨m, -, h⟩ | ⟨-, h⟩)
  · exact hq m s' h
  · exact hp s s' h

theorem only (hp : NeverNormal p) {c : S → Outcome → S → Prop} : NeverNormal (p.only c) :=
  fun s s' h => hp s s' h.1

end NeverNormal

/-! ### Partial correctness -/

def Meets (p : Behaviour S) (pre : S → Prop) (post : Outcome → S → Prop) : Prop :=
  ∀ ⦃s o s'⦄, pre s → p s o s' → post o s'

variable {p q : Behaviour S} {pre r : S → Prop} {post post' : Outcome → S → Prop}

theorem Meets.seq (hp : Meets p pre fun o s' => if o = .normal then r s' else post o s')
    (hq : Meets q r post) : Meets (p.seq q) pre post := by
  rintro s o s' hs (⟨m, hpm, hqm⟩ | ⟨ho, hpo⟩)
  · exact hq (by simpa using hp hs hpm) hqm
  · simpa [ho] using hp hs hpo

theorem Meets.either (hp : Meets p pre post) (hq : Meets q pre post) :
    Meets (p.either q) pre post := by
  rintro s o s' hs (h | h)
  · exact hp hs h
  · exact hq hs h

theorem Meets.weaken (hp : Meets p r post) (hpre : ∀ s, pre s → r s)
    (hpost : ∀ o s', post o s' → post' o s') : Meets p pre post' :=
  fun _ o s' hs h => hpost o s' (hp (hpre _ hs) h)

theorem Meets.loop {inv : S → Prop}
    (hr : Meets p inv fun o s' =>
      if o = .normal then inv s' else if o = .broke then post .normal s' else post o s') :
    Meets (Loop p) inv post := by
  intro s o s' hs h
  induction h with
  | again hround _ ih => exact ih (by simpa using hr hs hround)
  | stop hround => simpa using hr hs hround
  | exit ho hround => simpa [ho.1, ho.2.1] using hr hs hround

/-! ### Invariants -/

/-- A run from a state with the invariant and `r` keeps the invariant, and has `r'` if it falls
through. -/
def Maintains (inv r : S → Prop) (p : Behaviour S) (r' : S → Prop) : Prop :=
  Meets p (fun s => inv s ∧ r s) fun o s' => inv s' ∧ (o = .normal → r' s')

namespace Maintains
variable {inv r r' m : S → Prop} {p q : Behaviour S}

theorem weaken (h : Maintains inv r p r') {r₀ r₁ : S → Prop} (hpre : ∀ s, r₀ s → r s)
    (hpost : ∀ s, r' s → r₁ s) : Maintains inv r₀ p r₁ := by
  rintro s o s' ⟨hinv, hr⟩ hp
  obtain ⟨hinv', hr'⟩ := h ⟨hinv, hpre s hr⟩ hp
  exact ⟨hinv', fun ho => hpost s' (hr' ho)⟩

theorem forget (h : Maintains inv r p r') : Maintains inv r p fun _ => True :=
  h.weaken (fun _ => id) fun _ _ => trivial

theorem done {o : Outcome} (h : o = .normal → ∀ s, r s → r' s) :
    Maintains inv r (Behaviour.done o) r' := by
  rintro s o' s' ⟨hinv, hr⟩ ⟨rfl, rfl⟩
  exact ⟨hinv, fun ho => h ho _ hr⟩

theorem skip : Maintains inv r (Behaviour.done .normal) r := done fun _ _ => id

theorem jump {o : Outcome} (ho : o ≠ .normal) : Maintains inv r (Behaviour.done o) r' :=
  done fun h => absurd h ho

theorem seq (hp : Maintains inv r p m) (hq : Maintains inv m q r') :
    Maintains inv r (p.seq q) r' := by
  rintro s o s' hs (⟨t, hpt, hqt⟩ | ⟨ho, hpo⟩)
  · obtain ⟨hinv, hm⟩ := hp hs hpt
    exact hq ⟨hinv, hm rfl⟩ hqt
  · exact ⟨(hp hs hpo).1, fun h => absurd h ho⟩

theorem either (hp : Maintains inv r p r') (hq : Maintains inv r q r') :
    Maintains inv r (p.either q) r' :=
  Meets.either hp hq

theorem loop (hround : Maintains inv r p r) : Maintains inv r (Loop p) fun _ => True := by
  refine Meets.loop fun s o s' hs h => ?_
  obtain ⟨hinv, hr⟩ := hround hs h
  by_cases ho : o = .normal
  · simp [ho, hinv, hr ho]
  · simp [ho, hinv]

theorem handle (hp : Maintains inv r p r') (hq : Maintains inv (fun _ => True) q r') :
    Maintains inv r (p.handle q) r' := by
  rintro s o s' hs (⟨t, hpt, hqt⟩ | ⟨-, hpo⟩)
  · exact hq ⟨(hp hs hpt).1, trivial⟩ hqt
  · exact hp hs hpo

theorem ensure (hp : Maintains inv r p fun _ => True)
    (hq : Maintains inv (fun _ => True) q fun _ => True) :
    Maintains inv r (p.ensure q) fun _ => True := by
  rintro s o s' hs (⟨-, hpo⟩ | ⟨o₁, t, o₂, -, hpt, hqt, -⟩)
  · exact ⟨(hp hs hpo).1, fun _ => trivial⟩
  · exact ⟨(hq ⟨(hp hs hpt).1, trivial⟩ hqt).1, fun _ => trivial⟩

theorem rename (hp : Maintains inv r p fun _ => True) {ρ : Outcome → Outcome → Prop} :
    Maintains inv r (p.rename ρ) fun _ => True := by
  rintro s o s' hs ⟨o₀, hpo, -⟩
  exact ⟨(hp hs hpo).1, fun _ => trivial⟩

theorem only (hp : Maintains inv r p r') {c : S → Outcome → S → Prop} :
    Maintains inv r (p.only c) r' := by
  rintro s o s' hs ⟨hpo, -⟩
  exact hp hs hpo

end Maintains

end Behaviour

end Neutron
