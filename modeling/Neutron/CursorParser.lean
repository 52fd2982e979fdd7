import Mathlib.Data.List.Basic
import Mathlib.Data.Nat.Basic
import Mathlib.Order.Basic

/-!
# Parsers with a cursor

Parsers that move a cursor over a fixed list of tokens. Looking at the tokens that are left always
works; taking a token past the end is a crash. An error leaves the cursor where it was raised, and a
parser may look ahead and put the cursor back. Recursion and loops run on fuel.

`Runs` is what a parser promises about the cursor: it only moves forward and stays in the list, it
moves when a result says so, and the parser never crashes. The promise is made from a position
`start` on. Its flags tell whether the cursor has already moved past `start` and whether a token is
known to stand at it, so that the rules for the combinators compute them.
-/

namespace Neutron

namespace CursorParser

/-- What a parser does: a result or an error with the position of the cursor after it, or an
abort. -/
inductive Outcome (ε α : Type) where
  | ok (a : α) (pos : ℕ)
  | error (e : ε) (pos : ℕ)
  | panic
  | outOfFuel

end CursorParser

def CursorParser (τ ε α : Type) : Type := List τ → ℕ → CursorParser.Outcome ε α

namespace CursorParser
variable {τ ε ε' α β γ : Type}

instance : Monad (CursorParser τ ε) where
  pure a := fun _ pos => .ok a pos
  bind p f := fun ts pos =>
    match p ts pos with
    | .ok a q => f a ts q
    | .error e q => .error e q
    | .panic => .panic
    | .outOfFuel => .outOfFuel

def fail (e : ε) : CursorParser τ ε α := fun _ pos => .error e pos

def crash : CursorParser τ ε α := fun _ _ => .panic

def exhausted : CursorParser τ ε α := fun _ _ => .outOfFuel

/-- Take the token at the cursor. -/
def advance : CursorParser τ ε τ := fun ts pos =>
  match ts[pos]? with
  | some t => .ok t (pos + 1)
  | none => .panic

/-- A value computed from the tokens that are left. -/
def look (f : List τ → α) : CursorParser τ ε α := fun ts pos => .ok (f (ts.drop pos)) pos

/-- Run a parser and put the cursor back. -/
def ahead (p : CursorParser τ ε α) : CursorParser τ ε α := fun ts pos =>
  match p ts pos with
  | .ok a _ => .ok a pos
  | other => other

/-- Run a parser and go on after its error, if it has one. -/
def attempt (p : CursorParser τ ε α) : CursorParser τ ε' (Except ε α) := fun ts pos =>
  match p ts pos with
  | .ok a q => .ok (.ok a) q
  | .error e q => .ok (.error e) q
  | .panic => .panic
  | .outOfFuel => .outOfFuel

/-- When the first parser gives nothing, put the cursor back and run the second. -/
def orRewind (p : CursorParser τ ε (Option α)) (q : CursorParser τ ε α) : CursorParser τ ε α := fun ts pos =>
  match p ts pos with
  | .ok (some a) r => .ok a r
  | .ok none _ => q ts pos
  | .error e r => .error e r
  | .panic => .panic
  | .outOfFuel => .outOfFuel

/-- The turns of a loop: `.inl` goes on, `.inr` leaves it. -/
def turns (turn : α → CursorParser τ ε (α ⊕ β)) : ℕ → α → CursorParser τ ε β
  | 0, _ => exhausted
  | n + 1, a => turn a >>= Sum.elim (turns turn n) pure

def loop (turn : α → CursorParser τ ε (α ⊕ β)) (a : α) : CursorParser τ ε β := fun ts pos =>
  turns turn (ts.length + 1) a ts pos

theorem bind_eq (p : CursorParser τ ε α) (f : α → CursorParser τ ε β) (ts : List τ) (pos : ℕ) :
    (p >>= f) ts pos = match p ts pos with
      | .ok a q => f a ts q
      | .error e q => .error e q
      | .panic => .panic
      | .outOfFuel => .outOfFuel := rfl

variable {ts : List τ}

theorem bind_of_ok {p : CursorParser τ ε α} {f : α → CursorParser τ ε β} {pos q : ℕ}
    {a : α} (h : p ts pos = .ok a q) : (p >>= f) ts pos = f a ts q := by
  rw [bind_eq, h]

variable {pos : ℕ}

theorem look_of_true {c : List τ → Bool} {p q : CursorParser τ ε α}
    (h : c (ts.drop pos) = true) : (look c >>= fun b => if b then p else q) ts pos = p ts pos := by
  simp only [look, bind_eq, h, if_true]

theorem look_of_false {c : List τ → Bool} {p q : CursorParser τ ε α}
    (h : c (ts.drop pos) = false) : (look c >>= fun b => if b then p else q) ts pos = q ts pos := by
  simp only [look, bind_eq, h, Bool.false_eq_true, if_false]

instance : LawfulMonad (CursorParser τ ε) := by
  refine LawfulMonad.mk' _ ?_ (fun _ _ => rfl) ?_
  · intro α p
    funext ts pos
    show (p >>= pure) ts pos = p ts pos
    rw [bind_eq]
    cases p ts pos <;> rfl
  · intro α β γ p f g
    funext ts pos
    simp only [bind_eq]
    cases p ts pos <;> rfl

theorem advance_eq {t : τ} {rest : List τ} (h : ts.drop pos = t :: rest) :
    advance (ε := ε) ts pos = .ok t (pos + 1) := by
  have hget : ts[pos]? = some t := by rw [← List.head?_drop, h, List.head?_cons]
  unfold advance
  rw [hget]

theorem drop_succ_of_cons {t : τ} {rest : List τ} (h : ts.drop pos = t :: rest) : ts.drop (pos + 1) = rest := by
  rw [← List.drop_drop, h, List.drop_succ_cons, List.drop_zero]

theorem drop_add_of_append {ts l rest : List τ} (h : ts.drop pos = l ++ rest) :
    ts.drop (pos + l.length) = rest := by
  rw [← List.drop_drop, h, List.drop_left]

theorem lt_length_of_cons {t : τ} {rest : List τ} (h : ts.drop pos = t :: rest) : pos < ts.length := by
  by_contra hout
  rw [List.drop_eq_nil_of_le (by omega)] at h
  exact List.cons_ne_nil _ _ h.symm

/-- The parser leaves the cursor where it stands. -/
def Stays (p : CursorParser τ ε α) : Prop :=
  ∀ ⦃ts : List τ⦄ ⦃pos : ℕ⦄ ⦃a : α⦄ ⦃q : ℕ⦄, p ts pos = .ok a q → q = pos

theorem stays_look (f : List τ → α) : Stays (look (ε := ε) f) := by
  intro ts pos a q h
  simp only [look, Outcome.ok.injEq] at h
  exact h.2.symm

theorem stays_ahead (p : CursorParser τ ε α) : Stays (ahead p) := by
  intro ts pos a q h
  unfold ahead at h
  split at h
  · exact (Outcome.ok.inj h).2.symm
  · rename_i hother
    exact absurd h (hother a q)

/-- What an outcome promises of a parser that started at `pos`; `excused` allows it to run out of
fuel. -/
def Keeps (excused : Prop) (len pos : ℕ) (eats : α → Bool) : Outcome ε α → Prop
  | .ok a q => pos ≤ q ∧ q ≤ len ∧ (eats a = true → pos < q)
  | .error _ q => pos ≤ q ∧ q ≤ len
  | .panic => False
  | .outOfFuel => excused

theorem Keeps.mono {excused : Prop} {len pos pos' : ℕ} {eats weaker : α → Bool}
    {r : Outcome ε α} (h : Keeps excused len pos eats r) (hle : pos' ≤ pos)
    (hweaker : ∀ a, weaker a = true → eats a = true ∨ pos' < pos) :
    Keeps excused len pos' weaker r := by
  cases r with
  | ok a q =>
    obtain ⟨hq, hlen, heats⟩ := h
    refine ⟨hle.trans hq, hlen, fun ha => ?_⟩
    rcases hweaker a ha with ha | hlt
    · exact lt_of_le_of_lt hle (heats ha)
    · exact lt_of_lt_of_le hlt hq
  | error e q => exact ⟨hle.trans h.1, h.2⟩
  | panic => exact h
  | outOfFuel => exact h

theorem Keeps.bind {excused : Prop} {pos cursor : ℕ} {eats : α → Bool} {eats' : β → Bool}
    {p : CursorParser τ ε α} {f : α → CursorParser τ ε β}
    (hp : Keeps excused ts.length pos eats (p ts cursor))
    (hf : ∀ a q, pos ≤ q → q ≤ ts.length → (eats a = true → pos < q) →
      Keeps excused ts.length pos eats' (f a ts q)) :
    Keeps excused ts.length pos eats' ((p >>= f) ts cursor) := by
  rw [bind_eq]
  cases hpq : p ts cursor with
  | ok a q =>
    rw [hpq] at hp
    exact hf a q hp.1 hp.2.1 hp.2.2
  | error e q => rwa [hpq] at hp
  | panic => rwa [hpq] at hp
  | outOfFuel => rwa [hpq] at hp

/-- What the promise of a parser that always takes a token says. -/
theorem Keeps.consumes {excused : Prop} {len pos : ℕ} {r : Outcome ε α}
    (h : Keeps excused len pos (fun _ => true) r) :
    r ≠ .panic ∧ ∀ a q, r = .ok a q → pos < q ∧ q ≤ len := by
  cases r with
  | ok a q =>
    refine ⟨nofun, fun a' q' heq => ?_⟩
    cases heq
    exact ⟨h.2.2 rfl, h.2.1⟩
  | error e q => exact ⟨nofun, nofun⟩
  | panic => exact h.elim
  | outOfFuel => exact ⟨nofun, nofun⟩

/-- What a parser promises from `start` on. -/
def Runs (excused : Prop) (ts : List τ) (start : ℕ) (moved atToken : Bool) (eats : α → Bool)
    (p : CursorParser τ ε α) : Prop :=
  ∀ pos, start ≤ pos → (moved = true → start < pos) → pos ≤ ts.length →
    (atToken = true → pos < ts.length) → Keeps excused ts.length pos eats (p ts pos)

namespace Runs
variable {excused : Prop} {ts : List τ} {start : ℕ} {moved atToken : Bool}
  {eats : α → Bool} {eats' : β → Bool}

variable {p : CursorParser τ ε α}

theorem keeps {pos : ℕ} (h : Runs excused ts pos false false eats p)
    (hlen : pos ≤ ts.length) : Keeps excused ts.length pos eats (p ts pos) :=
  h pos le_rfl (by simp) hlen (by simp)

theorem pure {a : α} (h : eats a = false) :
    Runs excused ts start moved atToken eats (Pure.pure a : CursorParser τ ε α) := by
  intro pos _ _ hlen _
  exact ⟨le_refl pos, hlen, by simp [h]⟩

theorem fail {e : ε} : Runs excused ts start moved atToken eats (CursorParser.fail e) := by
  intro pos _ _ hlen _
  exact ⟨le_refl pos, hlen⟩

theorem advance {eats : τ → Bool} :
    Runs excused ts start moved true eats (CursorParser.advance (ε := ε)) := by
  intro pos _ _ _ htoken
  have hlt := htoken rfl
  simp only [CursorParser.advance, List.getElem?_eq_getElem hlt]
  exact ⟨by omega, hlt, fun _ => by omega⟩

theorem look {f : List τ → α} :
    Runs excused ts start moved atToken (fun _ => false) (CursorParser.look (ε := ε) f) := by
  intro pos _ _ hlen _
  exact ⟨le_refl pos, hlen, by simp⟩

theorem mono (h : Runs excused ts start moved atToken eats p)
    {start' : ℕ} {moved' atToken' : Bool} {weaker : α → Bool} (hstart : start ≤ start')
    (hmoved : moved = true → start < start' ∨ moved' = true)
    (htoken : atToken = true → atToken' = true) (hweaker : ∀ a, weaker a = true → eats a = true) :
    Runs excused ts start' moved' atToken' weaker p := by
  intro pos hpos hmoved' hlen htoken'
  have hpast : moved = true → start < pos := by
    intro hm
    rcases hmoved hm with h | h
    · omega
    · have := hmoved' h
      omega
  have hrun := h pos (hstart.trans hpos) hpast hlen fun hb => htoken' (htoken hb)
  exact hrun.mono le_rfl fun a ha => .inl (hweaker a ha)

theorem weaken (h : Runs excused ts start moved atToken eats p) :
    Runs excused ts start moved atToken (fun _ => false) p :=
  h.mono le_rfl .inr id (by simp)

/-- A promise from the next position on is one for a cursor that has moved. -/
theorem of_succ (h : Runs excused ts (start + 1) false atToken eats p) :
    Runs excused ts start true atToken eats p := by
  intro pos _ hmoved hlen htoken
  exact h pos (hmoved rfl) (by simp) hlen htoken

variable {f : α → CursorParser τ ε β}

theorem bind (hp : Runs excused ts start moved atToken eats p)
    (hf : ∀ a, Runs excused ts start (eats a || moved) false (fun b => !eats a && eats' b) (f a)) :
    Runs excused ts start moved atToken eats' (p >>= f) := by
  intro pos hpos hmoved hlen htoken
  refine (hp pos hpos hmoved hlen htoken).bind fun a q hle hq heats => ?_
  have hpast : (eats a || moved) = true → start < q := by
    intro h
    rcases Bool.or_eq_true_iff.mp h with h | h
    · exact lt_of_le_of_lt hpos (heats h)
    · exact lt_of_lt_of_le (hmoved h) hle
  refine (hf a q (hpos.trans hle) hpast hq (by simp)).mono hle fun b hb => ?_
  cases ha : eats a with
  | true => exact .inr (heats ha)
  | false => exact .inl (by simpa using hb)

/-- After a parser that takes a token. -/
theorem eat (hp : Runs excused ts start moved atToken (fun _ => true) p)
    (hf : ∀ a, Runs excused ts start true false (fun _ => false) (f a)) :
    Runs excused ts start moved atToken eats' (p >>= f) := bind hp hf

/-- After a parser that may leave the cursor in place. -/
theorem pass (hp : Runs excused ts start moved atToken (fun _ => false) p)
    (hf : ∀ a, Runs excused ts start moved false eats' (f a)) :
    Runs excused ts start moved atToken eats' (p >>= f) := bind hp hf

/-- After a parser that leaves the cursor in place a token still stands at it. -/
theorem bind_stays (hp : Runs excused ts start moved atToken eats p) (hstays : Stays p)
    (hf : ∀ a, Runs excused ts start moved atToken eats' (f a)) :
    Runs excused ts start moved atToken eats' (p >>= f) := by
  intro pos hpos hmoved hlen htoken
  have hrun := hp pos hpos hmoved hlen htoken
  rw [bind_eq]
  cases hpq : p ts pos with
  | error e q => rwa [hpq] at hrun
  | panic => rwa [hpq] at hrun
  | outOfFuel => rwa [hpq] at hrun
  | ok a q =>
    obtain rfl := hstays hpq
    exact hf a q hpos hmoved hlen htoken

/-- Where tokens are left, the first of them can be taken. -/
theorem bind_look {f : List τ → α} {g : α → CursorParser τ ε β}
    (htoken : ∀ t rest, Runs excused ts start moved true eats' (g (f (t :: rest))))
    (hend : Runs excused ts start moved atToken eats' (g (f []))) :
    Runs excused ts start moved atToken eats' (CursorParser.look f >>= g) := by
  intro pos hpos hmoved hlen hat
  rw [bind_eq]
  simp only [CursorParser.look]
  by_cases hlt : pos < ts.length
  · rw [List.drop_eq_getElem_cons hlt]
    exact htoken _ _ pos hpos hmoved hlen fun _ => hlt
  · rw [List.drop_eq_nil_of_le (by omega)]
    exact hend pos hpos hmoved hlen hat

/-- A test that fails where no token is left. -/
theorem test {c : List τ → Bool} {p q : CursorParser τ ε β} (hc : c [] = false)
    (hp : Runs excused ts start moved true eats' p)
    (hq : Runs excused ts start moved atToken eats' q) :
    Runs excused ts start moved atToken eats'
      (CursorParser.look c >>= fun b => if b then p else q) := by
  refine bind_look (fun t rest => ?_) ?_
  · cases c (t :: rest) with
    | true => exact hp
    | false => exact hq.mono le_rfl .inr (fun _ => rfl) fun _ => id
  · rw [hc]
    exact hq

/-- A test that holds where no token is left. -/
theorem test_end {c : List τ → Bool} {p q : CursorParser τ ε β} (hc : c [] = true)
    (hp : Runs excused ts start moved atToken eats' p)
    (hq : Runs excused ts start moved true eats' q) :
    Runs excused ts start moved atToken eats'
      (CursorParser.look c >>= fun b => if b then p else q) := by
  refine bind_look (fun t rest => ?_) ?_
  · cases c (t :: rest) with
    | true => exact hp.mono le_rfl .inr (fun _ => rfl) fun _ => id
    | false => exact hq
  · rw [hc]
    exact hp

/-- A test that says nothing about the cursor. -/
theorem choice {c : List τ → Bool} {p q : CursorParser τ ε β}
    (hp : Runs excused ts start moved atToken eats' p)
    (hq : Runs excused ts start moved atToken eats' q) :
    Runs excused ts start moved atToken eats'
      (CursorParser.look c >>= fun b => if b then p else q) := by
  refine bind_stays look (stays_look c) fun b => ?_
  cases b with
  | true => exact hp
  | false => exact hq

theorem ite {c : Prop} [Decidable c] {p q : CursorParser τ ε α}
    (hp : c → Runs excused ts start moved atToken eats p)
    (hq : ¬ c → Runs excused ts start moved atToken eats q) :
    Runs excused ts start moved atToken eats (if c then p else q) := by
  split
  · exact hp ‹_›
  · exact hq ‹_›

theorem ahead (hp : Runs excused ts start moved atToken eats p) :
    Runs excused ts start moved atToken (fun _ => false) (CursorParser.ahead p) := by
  intro pos hpos hmoved hlen htoken
  have hrun := hp pos hpos hmoved hlen htoken
  unfold CursorParser.ahead
  cases hpq : p ts pos with
  | ok a q => exact ⟨le_rfl, hlen, by simp⟩
  | error e q => rwa [hpq] at hrun
  | panic => rwa [hpq] at hrun
  | outOfFuel => rwa [hpq] at hrun

theorem attempt (hp : Runs excused ts start moved atToken eats p) :
    Runs excused ts start moved atToken (fun r => r.toOption.any eats)
      (CursorParser.attempt p : CursorParser τ ε' (Except ε α)) := by
  intro pos hpos hmoved hlen htoken
  have hrun := hp pos hpos hmoved hlen htoken
  unfold CursorParser.attempt
  cases hpq : p ts pos with
  | ok a q => rwa [hpq] at hrun
  | error e q =>
    rw [hpq] at hrun
    exact ⟨hrun.1, hrun.2, by simp [Except.toOption]⟩
  | panic => rwa [hpq] at hrun
  | outOfFuel => rwa [hpq] at hrun

theorem orRewind {p : CursorParser τ ε (Option α)} {q : CursorParser τ ε α}
    (hp : Runs excused ts start moved atToken (Option.any eats) p)
    (hq : Runs excused ts start moved atToken eats q) :
    Runs excused ts start moved atToken eats (CursorParser.orRewind p q) := by
  intro pos hpos hmoved hlen htoken
  have hrun := hp pos hpos hmoved hlen htoken
  unfold CursorParser.orRewind
  cases hpq : p ts pos with
  | ok a r =>
    cases a with
    | some a => rwa [hpq] at hrun
    | none => exact hq pos hpos hmoved hlen htoken
  | error e r => rwa [hpq] at hrun
  | panic => rwa [hpq] at hrun
  | outOfFuel => rwa [hpq] at hrun

/-- A loop whose every turn that goes on moves the cursor has enough turns. -/
theorem turns {turn : α → CursorParser τ ε (α ⊕ β)}
    (h : ∀ a, Runs excused ts start moved false (Sum.elim (fun _ => true) eats') (turn a)) :
    ∀ (n : ℕ) (a : α) (pos : ℕ), start ≤ pos → (moved = true → start < pos) → pos ≤ ts.length →
      ts.length < n + pos → Keeps excused ts.length pos eats' (CursorParser.turns turn n a ts pos) := by
  intro n
  induction n with
  | zero => intro a pos _ _ _ _; omega
  | succ n ih =>
    intro a pos hpos hmoved hlen hfuel
    have hrun := h a pos hpos hmoved hlen (by simp)
    rw [CursorParser.turns, bind_eq]
    cases hturn : turn a ts pos with
    | error e q => rwa [hturn] at hrun
    | panic => rwa [hturn] at hrun
    | outOfFuel => rwa [hturn] at hrun
    | ok r q =>
      rw [hturn] at hrun
      obtain ⟨hle, hq, heats⟩ := hrun
      cases r with
      | inr b => exact ⟨hle, hq, heats⟩
      | inl a' =>
        have hlt : pos < q := heats rfl
        have hpast : moved = true → start < q := fun hm => (hmoved hm).trans hlt
        exact (ih a' q (hpos.trans hle) hpast hq (by omega)).mono hle fun _ _ => .inr hlt

theorem loop {turn : α → CursorParser τ ε (α ⊕ β)} {a : α}
    (h : ∀ a, Runs excused ts start moved false (Sum.elim (fun _ => true) eats') (turn a)) :
    Runs excused ts start moved atToken eats' (CursorParser.loop turn a) := by
  intro pos hpos hmoved hlen _
  exact turns h (ts.length + 1) a pos hpos hmoved hlen (by omega)

end Runs

/-- The parser takes the token at the cursor first, so that its errors move the cursor too. -/
def Leads (excused : Prop) (ts : List τ) (start : ℕ) (p : CursorParser τ ε α) : Prop :=
  ∃ f : τ → CursorParser τ ε α, p = advance >>= f ∧
    ∀ t, Runs excused ts start true false (fun _ => false) (f t)

namespace Leads
variable {excused : Prop} {ts : List τ} {start : ℕ} {p : CursorParser τ ε α}

theorem intro {f : τ → CursorParser τ ε α}
    (h : ∀ t, Runs excused ts start true false (fun _ => false) (f t)) :
    Leads excused ts start (advance >>= f) := ⟨f, rfl, h⟩

theorem runs {moved : Bool} {eats : α → Bool} (h : Leads excused ts start p) :
    Runs excused ts start moved true eats p := by
  obtain ⟨f, rfl, hf⟩ := h
  exact .eat .advance hf

theorem bind {f : α → CursorParser τ ε β} (h : Leads excused ts start p)
    (hf : ∀ a, Runs excused ts start true false (fun _ => false) (f a)) :
    Leads excused ts start (p >>= f) := by
  obtain ⟨g, rfl, hg⟩ := h
  refine ⟨fun t => g t >>= f, bind_assoc _ _ _, fun t => ?_⟩
  exact .pass (hg t) hf

/-- Seen from the next position the cursor has not gone back. -/
theorem keeps_succ {pos : ℕ} (h : Leads excused ts start p) (hpos : start ≤ pos)
    (hlt : pos < ts.length) : Keeps excused ts.length (pos + 1) (fun _ => false) (p ts pos) := by
  obtain ⟨f, rfl, hf⟩ := h
  rw [bind_eq, advance_eq (List.drop_eq_getElem_cons hlt)]
  exact hf _ (pos + 1) (by omega) (by omega) hlt (by simp)

end Leads

section Loops
variable {ts : List τ} {turn : α → CursorParser τ ε (α ⊕ β)} {pos q : ℕ} {a a' : α} {b : β}

/-- Every turn that goes on moves the cursor forward. -/
def Progresses (ts : List τ) (turn : α → CursorParser τ ε (α ⊕ β)) : Prop :=
  ∀ a a' pos q, pos ≤ ts.length → turn a ts pos = .ok (.inl a') q → pos < q ∧ q ≤ ts.length

/-- Any two amounts of fuel that are enough give the same result. -/
theorem turns_congr (h : Progresses ts turn) :
    ∀ {n m : ℕ} {a : α} {pos : ℕ}, pos ≤ ts.length → ts.length < n + pos → ts.length < m + pos →
      turns turn n a ts pos = turns turn m a ts pos := by
  intro n
  induction n with
  | zero => intro m a pos hlen hn _; omega
  | succ n ih =>
    intro m a pos hlen hn hm
    cases m with
    | zero => omega
    | succ m =>
      rw [turns, turns, bind_eq, bind_eq]
      cases hturn : turn a ts pos with
      | ok r q =>
        cases r with
        | inl a' =>
          obtain ⟨hlt, hq⟩ := h a a' pos q hlen hturn
          exact ih hq (by omega) (by omega)
        | inr b => rfl
      | error e q => rfl
      | panic => rfl
      | outOfFuel => rfl

theorem loop_of_inl (h : Progresses ts turn) (hlen : pos ≤ ts.length)
    (hturn : turn a ts pos = .ok (.inl a') q) : loop turn a ts pos = loop turn a' ts q := by
  obtain ⟨hlt, hq⟩ := h a a' pos q hlen hturn
  rw [loop, turns, bind_of_ok hturn]
  exact turns_congr h hq (by omega) (by omega)

theorem loop_of_inr (hturn : turn a ts pos = .ok (.inr b) q) : loop turn a ts pos = .ok b q := by
  rw [loop, turns, bind_of_ok hturn]
  rfl

end Loops

section Results
variable {p : CursorParser τ ε α} {f : α → CursorParser τ ε β} {ts : List τ} {pos q : ℕ} {b : β}

theorem bind_eq_ok (h : (p >>= f) ts pos = .ok b q) :
    ∃ a r, p ts pos = .ok a r ∧ f a ts r = .ok b q := by
  rw [bind_eq] at h
  cases hp : p ts pos with
  | ok a r =>
    rw [hp] at h
    exact ⟨a, r, rfl, h⟩
  | error e r =>
    rw [hp] at h
    cases h
  | panic =>
    rw [hp] at h
    cases h
  | outOfFuel =>
    rw [hp] at h
    cases h

end Results

/-- Every result of the parser has a property. -/
def Returns (P : α → Prop) (p : CursorParser τ ε α) : Prop :=
  ∀ ⦃ts : List τ⦄ ⦃pos : ℕ⦄ ⦃a : α⦄ ⦃q : ℕ⦄, p ts pos = .ok a q → P a

namespace Returns
variable {P : α → Prop} {Q : β → Prop}

theorem pure {a : α} (h : P a) : Returns P (Pure.pure a : CursorParser τ ε α) := by
  intro ts pos a' q heq
  cases heq
  exact h

theorem fail {e : ε} : Returns P (CursorParser.fail e : CursorParser τ ε α) := by
  intro ts pos a q heq
  cases heq

theorem crash : Returns P (CursorParser.crash : CursorParser τ ε α) := by
  intro ts pos a q heq
  cases heq

variable {p : CursorParser τ ε α}

/-- After a parser of whose result nothing is known. -/
theorem after {f : α → CursorParser τ ε β} (hf : ∀ a, Returns Q (f a)) : Returns Q (p >>= f) := by
  intro ts pos b q heq
  obtain ⟨a, r, -, hb⟩ := bind_eq_ok heq
  exact hf a hb

theorem bind {f : α → CursorParser τ ε β} (hp : Returns P p)
    (hf : ∀ a, P a → Returns Q (f a)) : Returns Q (p >>= f) := by
  intro ts pos b q heq
  obtain ⟨a, r, ha, hb⟩ := bind_eq_ok heq
  exact hf a (hp ha) hb

theorem orRewind {p : CursorParser τ ε (Option α)} {r : CursorParser τ ε α}
    (hp : Returns (fun a => ∀ b ∈ a, P b) p) (hr : Returns P r) :
    Returns P (CursorParser.orRewind p r) := by
  intro ts pos a q heq
  unfold CursorParser.orRewind at heq
  split at heq
  · rename_i hsome
    cases heq
    exact hp hsome _ rfl
  · exact hr heq
  · cases heq
  · cases heq
  · cases heq

theorem attempt (hp : Returns P p) : Returns (fun a => ∀ b ∈ a.toOption, P b)
      (CursorParser.attempt p : CursorParser τ ε' (Except ε α)) := by
  intro ts pos a q heq
  unfold CursorParser.attempt at heq
  split at heq
  · rename_i hok
    cases heq
    rintro b ⟨⟩
    exact hp hok
  · cases heq
    nofun
  · cases heq
  · cases heq

/-- An invariant of the turns holds when the loop is left. -/
theorem turns {I : α → Prop} {turn : α → CursorParser τ ε (α ⊕ β)}
    (h : ∀ a, I a → Returns (Sum.elim I Q) (turn a)) :
    ∀ (n : ℕ) {a : α}, I a → Returns Q (CursorParser.turns turn n a) := by
  intro n
  induction n with
  | zero =>
    intro a _ ts pos b q heq
    cases heq
  | succ n ih =>
    intro a ha
    refine .bind (h a ha) fun r hr => ?_
    cases r with
    | inl a' => exact ih hr
    | inr b => exact .pure hr

theorem loop {I : α → Prop} {turn : α → CursorParser τ ε (α ⊕ β)} {a : α}
    (h : ∀ a, I a → Returns (Sum.elim I Q) (turn a)) (ha : I a) :
    Returns Q (CursorParser.loop turn a) := by
  intro ts pos b q heq
  exact turns h (ts.length + 1) ha heq

end Returns

end CursorParser

end Neutron
