import Mathlib.Data.List.Basic
import Mathlib.Data.List.Forall2
import Mathlib.Tactic.Common

/-!
# Regular expressions of characters and classes

The part of the documented syntax of regular expressions that is made of single characters, classes and
their repetition, anchored at both ends. What uses other parts of the syntax is not read.
-/

namespace Neutron.Regex

/-- A character with a property, or a run of them. -/
inductive Step where
  | one (p : Char → Bool)
  | many (p : Char → Bool)

def Matches : List Step → List Char → Prop
  | [], s => s = []
  | .one p :: steps, s => ∃ c t, s = c :: t ∧ p c = true ∧ Matches steps t
  | .many p :: steps, s => ∃ u t, s = u ++ t ∧ (∀ c ∈ u, p c = true) ∧ Matches steps t

/-- The runs that `p` may start with, the shortest first. -/
def acceptsRun (p : Char → Bool) (next : List Char → Bool) : List Char → Bool
  | [] => next []
  | c :: s => next (c :: s) || p c && acceptsRun p next s

def accepts : List Step → List Char → Bool
  | [], s => s.isEmpty
  | .one p :: steps, s =>
    match s with
    | [] => false
    | c :: t => p c && accepts steps t
  | .many p :: steps, s => acceptsRun p (accepts steps) s

theorem acceptsRun_iff (p : Char → Bool) (next : List Char → Bool) (s : List Char) :
    acceptsRun p next s = true ↔ ∃ u t, s = u ++ t ∧ (∀ c ∈ u, p c = true) ∧ next t = true := by
  induction s with
  | nil =>
    constructor
    · exact fun h => ⟨[], [], rfl, nofun, h⟩
    · rintro ⟨u, t, hs, -, ht⟩
      obtain ⟨rfl, rfl⟩ := List.append_eq_nil_iff.mp hs.symm
      exact ht
  | cons c s ih =>
    rw [acceptsRun, Bool.or_eq_true, Bool.and_eq_true, ih]
    constructor
    · rintro (h | ⟨hc, u, t, rfl, hu, ht⟩)
      · exact ⟨[], c :: s, rfl, nofun, h⟩
      · exact ⟨c :: u, t, rfl, List.forall_mem_cons.mpr ⟨hc, hu⟩, ht⟩
    · rintro ⟨u, t, hs, hu, ht⟩
      cases u with
      | nil =>
        obtain rfl : c :: s = t := hs
        exact .inl ht
      | cons d u =>
        obtain ⟨rfl, rfl⟩ := List.cons.inj hs
        obtain ⟨hc, hu⟩ := List.forall_mem_cons.mp hu
        exact .inr ⟨hc, u, t, rfl, hu, ht⟩

theorem accepts_iff (steps : List Step) (s : List Char) : accepts steps s = true ↔ Matches steps s := by
  induction steps generalizing s with
  | nil => exact List.isEmpty_iff
  | cons step steps ih =>
    cases step with
    | one p =>
      rw [Matches]
      cases s with
      | nil => exact ⟨nofun, fun ⟨_, _, h, _⟩ => absurd h.symm (List.cons_ne_nil _ _)⟩
      | cons c s =>
        rw [accepts, Bool.and_eq_true, ih]
        constructor
        · exact fun h => ⟨c, s, rfl, h⟩
        · rintro ⟨d, t, hs, h⟩
          obtain ⟨rfl, rfl⟩ := List.cons.inj hs
          exact h
    | many p =>
      rw [Matches, accepts, acceptsRun_iff]
      exact exists_congr fun u => exists_congr fun t => and_congr_right' (and_congr_right' (ih t))

/-- The steps ask the same of the characters of a text. -/
def Step.Agree (s : List Char) : Step → Step → Prop
  | .one p, .one q | .many p, .many q => ∀ c ∈ s, p c = q c
  | _, _ => False

theorem Step.Agree.symm {s : List Char} {x y : Step} (h : x.Agree s y) : y.Agree s x := by
  cases x <;> cases y <;> first | exact h.elim | exact fun c hc => (h c hc).symm

theorem matches_of_agree {xs ys : List Step} {base s : List Char} (h : List.Forall₂ (Step.Agree base) xs ys)
    (hbase : ∀ c ∈ s, c ∈ base) (hs : Matches xs s) : Matches ys s := by
  induction h generalizing s with
  | nil => exact hs
  | @cons x y xs ys hstep hsteps ih =>
    cases x with
    | one p =>
      cases y with
      | one q =>
        obtain ⟨c, t, rfl, hc, ht⟩ := hs
        obtain ⟨hbase, hrest⟩ := List.forall_mem_cons.mp hbase
        exact ⟨c, t, rfl, (hstep c hbase).symm.trans hc, ih hrest ht⟩
      | many q => exact hstep.elim
    | many p =>
      cases y with
      | one q => exact hstep.elim
      | many q =>
        obtain ⟨u, t, rfl, hu, ht⟩ := hs
        obtain ⟨hrun, hrest⟩ := List.forall_mem_append.mp hbase
        exact ⟨u, t, rfl, fun c hc => (hstep c (hrun c hc)).symm.trans (hu c hc), ih hrest ht⟩

theorem matches_congr {xs ys : List Step} {s : List Char} (h : List.Forall₂ (Step.Agree s) xs ys) :
    Matches xs s ↔ Matches ys s := by
  have hback : List.Forall₂ (Step.Agree s) ys xs := h.flip.imp fun _ _ hstep => Step.Agree.symm hstep
  exact ⟨matches_of_agree h fun _ hc => hc, matches_of_agree hback fun _ hc => hc⟩

/-! ## Bracket expressions -/

/-- A character of a bracket expression, by itself or after a backslash. -/
inductive Letter where
  | plain (c : Char)
  | escaped (c : Char)
  deriving DecidableEq

def Letter.char : Letter → Char
  | .plain c | .escaped c => c

def Letter.text : Letter → List Char
  | .plain c => [c]
  | .escaped c => ['\\', c]

def lettersText (ls : List Letter) : List Char := ls.flatMap Letter.text

/-- The letters up to the closing bracket, which does not come first. -/
def readLetters (first : Bool) : List Char → Option (List Letter × List Char)
  | [] => none
  | c :: s =>
    if c = '\\' then
      match s with
      | [] => none
      | d :: s => (readLetters false s).map fun r => (.escaped d :: r.1, r.2)
    else if c = ']' ∧ first = false then some ([], s)
    else (readLetters false s).map fun r => (.plain c :: r.1, r.2)

theorem readLetters_cons (first : Bool) (c : Char) (s : List Char) : readLetters first (c :: s) =
    if c = '\\' then
      match s with
      | [] => none
      | d :: s => (readLetters false s).map fun r => (.escaped d :: r.1, r.2)
    else if c = ']' ∧ first = false then some ([], s)
    else (readLetters false s).map fun r => (.plain c :: r.1, r.2) := by
  cases s <;> rfl

/-- Letters that are read back from their text. -/
def Written : Bool → List Letter → Prop
  | first, [] => first = false
  | first, .plain c :: ls => c ≠ '\\' ∧ (c = ']' → first = true) ∧ Written false ls
  | _, .escaped _ :: ls => Written false ls

theorem readLetters_text {first : Bool} {ls : List Letter} (h : Written first ls) (rest : List Char) :
    readLetters first (lettersText ls ++ ']' :: rest) = some (ls, rest) := by
  induction ls generalizing first with
  | nil =>
    obtain rfl : first = false := h
    change readLetters false (']' :: rest) = _
    rw [readLetters_cons, if_neg (by decide), if_pos ⟨rfl, rfl⟩]
  | cons l ls ih =>
    cases l with
    | plain c =>
      obtain ⟨hbackslash, hbracket, hls⟩ := h
      have hopen : ¬ (c = ']' ∧ first = false) := fun hc => by simp [hbracket hc.1] at hc
      change readLetters first (c :: (lettersText ls ++ ']' :: rest)) = _
      rw [readLetters_cons, if_neg hbackslash, if_neg hopen, ih hls]
      rfl
    | escaped c =>
      change (readLetters false (lettersText ls ++ ']' :: rest)).map _ = _
      rw [ih h]
      rfl

theorem text_of_readLetters {first : Bool} {s rest : List Char} {ls : List Letter}
    (h : readLetters first s = some (ls, rest)) : s = lettersText ls ++ ']' :: rest ∧ Written first ls := by
  induction hn : s.length using Nat.strongRecOn generalizing first s ls with
  | _ n ih =>
    subst hn
    cases s with
    | nil => exact absurd h nofun
    | cons c s =>
      rw [readLetters_cons] at h
      split_ifs at h with hbackslash hclose
      · cases s with
        | nil => exact absurd h nofun
        | cons d s =>
          obtain ⟨⟨ms, more⟩, hread, heq⟩ := Option.map_eq_some_iff.mp h
          obtain ⟨rfl, rfl⟩ := Prod.mk.inj heq
          obtain ⟨rfl, hwritten⟩ := ih _ (by simp only [List.length_cons]; omega) hread rfl
          exact ⟨by rw [hbackslash]; rfl, hwritten⟩
      · obtain ⟨rfl, rfl⟩ := Prod.mk.inj (Option.some.inj h)
        exact ⟨by rw [hclose.1]; rfl, hclose.2⟩
      · obtain ⟨⟨ms, more⟩, hread, heq⟩ := Option.map_eq_some_iff.mp h
        obtain ⟨rfl, rfl⟩ := Prod.mk.inj heq
        obtain ⟨rfl, hwritten⟩ := ih _ (by simp) hread rfl
        refine ⟨rfl, hbackslash, fun hc => ?_, hwritten⟩
        by_contra hfirst
        exact hclose ⟨hc, Bool.not_eq_true _ ▸ hfirst⟩

/-- A character, or a range of them. -/
inductive Entry where
  | single (l : Letter)
  | range (l m : Letter)
  deriving DecidableEq

/-- A hyphen between two letters makes a range of them. -/
def entries : List Letter → List Entry
  | [] => []
  | [l] => [.single l]
  | [l, m] => [.single l, .single m]
  | l :: d :: m :: ls => if d = .plain '-' then .range l m :: entries ls else .single l :: entries (d :: m :: ls)

def Entry.mem (c : Char) : Entry → Bool
  | .single l => c = l.char
  | .range l m => l.char ≤ c && c ≤ m.char

/-- One of the characters listed, or none of them. -/
def classMem (negated : Bool) (es : List Entry) (c : Char) : Bool := es.any (Entry.mem c) != negated

/-! ## The syntax of classes -/

/-- The characters a backslash makes literal. -/
def escapable (c : Char) : Bool := c.toNat < 128 && !c.isAlphanum && c != '<' && c != '>'

def Letter.isLiteral : Letter → Bool
  | .plain _ => true
  | .escaped c => escapable c

def Entry.first : Entry → Letter
  | .single l | .range l _ => l

/-- Two of these in a row are a set operator. -/
def Letter.operates (l : Letter) : Bool := l ∈ [Letter.plain '&', .plain '-', .plain '~']

/-- Classes without nested brackets and without set operators, their ranges in order. -/
def isUnion : List Entry → Bool
  | [] => true
  | .single l :: es =>
    l.isLiteral && l != .plain '[' && !(l.operates && es.head?.map Entry.first == some l) && isUnion es
  | .range l m :: es =>
    l.isLiteral && m.isLiteral && l != .plain '[' && l != .plain '-' && m != .plain '-' && decide (l.char ≤ m.char) &&
      isUnion es

/-- The entries of a class: a closing bracket that comes first begins no range. -/
def classEntries : List Letter → List Entry
  | [] => []
  | l :: ls => if l = .plain ']' then .single l :: entries ls else entries (l :: ls)

/-- `[...]` or `[^...]`, after the bracket. -/
def readClass (s : List Char) : Option ((Char → Bool) × List Char) :=
  let negated := decide (s.head? = some '^')
  match readLetters true (if negated then s.tail else s) with
  | none => none
  | some (ls, rest) =>
    if isUnion (classEntries ls) then some (classMem negated (classEntries ls), rest) else none

/-! ## The syntax of expressions -/

/-- The characters that stand for themselves only after a backslash. -/
def special : List Char := ['*', '+', '?', '(', ')', '|', '{', '^', '$']

/-- What is matched by one character. -/
def readAtom : List Char → Option ((Char → Bool) × List Char)
  | [] => none
  | c :: s =>
    if c = '.' then some (fun d => d != '\n', s)
    else if c = '[' then readClass s
    else if c = '\\' then
      match s with
      | [] => none
      | d :: s => if escapable d then some (fun e => e == d, s) else none
    else if c ∈ special then none
    else some (fun d => d == c, s)

/-- Atoms, each of them once or any number of times, up to the end of the text. -/
def readSteps : ℕ → List Char → Option (List Step)
  | 0, _ => none
  | n + 1, s =>
    if s = ['$'] then some []
    else match readAtom s with
      | none => none
      | some (p, rest) =>
        if rest.head? = some '*' then (readSteps n rest.tail).map (.many p :: ·)
        else (readSteps n rest).map (.one p :: ·)

/-- `^...$` -/
def read : List Char → Option (List Step)
  | [] => none
  | c :: s => if c = '^' then readSteps (s.length + 1) s else none

/-- An engine compiles what is documented, and finds the whole texts that match. -/
def Documented (engine : List Char → Option (List Char → Bool)) : Prop :=
  ∀ text steps, read text = some steps → ∃ isMatch, engine text = some isMatch ∧
    ∀ s, isMatch s = true ↔ Matches steps s

theorem documented_accepts : Documented fun text => (read text).map accepts := by
  intro text steps h
  exact ⟨accepts steps, congrArg (Option.map accepts) h, accepts_iff steps⟩

/-! ## Putting texts together -/

theorem readAtom_literal {c : Char} (hdot : c ≠ '.') (hbracket : c ≠ '[') (hbackslash : c ≠ '\\') (hc : c ∉ special)
    (s : List Char) : readAtom (c :: s) = some (fun d => d == c, s) := by
  cases s <;> rw [readAtom, if_neg hdot, if_neg hbracket, if_neg hbackslash, if_neg hc]

theorem readAtom_escaped {c : Char} (hc : escapable c = true) (s : List Char) :
    readAtom ('\\' :: c :: s) = some (fun d => d == c, s) := by
  rw [readAtom, if_neg (by decide), if_neg (by decide), if_pos rfl, if_pos hc]

theorem readAtom_class {negated : Bool} {ls : List Letter} (hls : Written true ls)
    (hfirst : negated = false → ls.head? ≠ some (.plain '^')) (hunion : isUnion (classEntries ls) = true)
    (s : List Char) :
    readAtom ('[' :: ((if negated then ['^'] else []) ++ (lettersText ls ++ ']' :: s))) =
      some (classMem negated (classEntries ls), s) := by
  change readClass _ = _
  rw [readClass]
  cases negated with
  | true =>
    change (match readLetters true (lettersText ls ++ ']' :: s) with | none => none | some (ls, rest) => _) = _
    rw [readLetters_text hls]
    exact if_pos hunion
  | false =>
    have hhead : (lettersText ls ++ ']' :: s).head? ≠ some '^' := by
      cases ls with
      | nil => exact absurd hls (by simp [Written])
      | cons l ls =>
        cases l with
        | plain c => exact fun h => hfirst rfl (congrArg (Option.map Letter.plain) h)
        | escaped c => exact fun h => absurd (Option.some.inj h) (by decide)
    simp only [Bool.false_eq_true, if_false, List.nil_append, hhead, decide_false]
    rw [readLetters_text hls]
    exact if_pos hunion

theorem readSteps_one {n : ℕ} {s rest : List Char} {p : Char → Bool} {steps : List Step} (hs : s ≠ ['$'])
    (hatom : readAtom s = some (p, rest)) (hstar : rest.head? ≠ some '*') (hrest : readSteps n rest = some steps) :
    readSteps (n + 1) s = some (.one p :: steps) := by
  rw [readSteps, if_neg hs, hatom]
  simp only [if_neg hstar, hrest, Option.map_some]

theorem readSteps_many {n : ℕ} {s rest : List Char} {p : Char → Bool} {steps : List Step} (hs : s ≠ ['$'])
    (hatom : readAtom s = some (p, '*' :: rest)) (hrest : readSteps n rest = some steps) :
    readSteps (n + 1) s = some (.many p :: steps) := by
  rw [readSteps, if_neg hs, hatom]
  simp only [List.head?_cons, if_true, List.tail_cons, hrest, Option.map_some]

end Neutron.Regex
