import Neutron.RegexSyntax

/-!
# Glob patterns

`glob_to_regex` writes a regular expression for a pattern, one character of the pattern after the other,
and `ntsc_glob_matches` asks the engine about it. The meaning of a pattern is given by what it reads as.
-/

namespace Neutron.Glob

open Regex

/-- What a pattern is made of. -/
inductive Token where
  | literal (c : Char)
  | escaped (c : Char)
  | any
  | star
  | globstar
  | cls (negated : Bool) (ls : List Letter)
  /-- A bracket that is not closed. -/
  | bracket
  /-- A backslash with nothing after it. -/
  | backslash

variable {ls : List Letter}

theorem length_of_readLetters {first : Bool} {s rest : List Char}
    (h : readLetters first s = some (ls, rest)) : rest.length < s.length := by
  rw [(text_of_readLetters h).1, List.length_append, List.length_cons]
  omega

/-- `^` or `!` after the bracket. -/
def isNegated (s : List Char) : Bool := s.head? = some '^' ∨ s.head? = some '!'

def afterNegation (s : List Char) : List Char := if isNegated s then s.tail else s

theorem length_afterNegation (s : List Char) : (afterNegation s).length ≤ s.length := by
  unfold afterNegation
  split_ifs
  · rw [List.length_tail]
    exact Nat.sub_le _ _
  · exact Nat.le_refl _

/-- A pattern as a glob. -/
def readGlob : List Char → List Token
  | [] => []
  | c :: s =>
    if c = '*' then
      if s.head? = some '*' then .globstar :: readGlob s.tail else .star :: readGlob s
    else if c = '?' then .any :: readGlob s
    else if c = '\\' then
      match s with
      | [] => [.backslash]
      | d :: s => .escaped d :: readGlob s
    else if c = '[' then
      match _h : readLetters true (afterNegation s) with
      | none => .bracket :: readGlob s
      | some (ls, rest) => .cls (isNegated s) ls :: readGlob rest
    else .literal c :: readGlob s
  termination_by s => s.length
  decreasing_by
    all_goals simp only [List.length_cons, List.length_tail]
    all_goals first
      | omega
      | exact Nat.lt_succ_of_lt (Nat.lt_of_lt_of_le (length_of_readLetters _h) (length_afterNegation s))

def Token.step : Token → Step
  | .literal c | .escaped c => .one fun d => d == c
  | .any => .one fun d => d != '/'
  | .star => .many fun d => d != '/'
  | .globstar => .many fun _ => true
  | .cls negated ls => .one (classMem negated (entries ls))
  | .bracket => .one fun d => d == '['
  | .backslash => .one fun d => d == '\\'

/-- The whole path matches the pattern. -/
def GlobMatches (pattern path : List Char) : Prop := Matches ((readGlob pattern).map Token.step) path

/-! ## The translation -/

/-- The characters that are written with a backslash. -/
def specials : List Char := ['.', '^', '$', '+', '(', ')', '{', '}', '|']

/-- The loop inside of a class: what is pushed on the expression, and the characters left. `cls` is ASCII in
its first character, so its length in bytes is over one when its length is. -/
def classLoop (cls : List Char) (prev : Char) : List Char → List Char × List Char
  | [] => ('\\' :: '[' :: (cls.tail ++ cls), [])
  | c :: s =>
    if c = ']' ∧ (prev ≠ '\x00' ∨ 1 < cls.length) then (cls ++ [']'], s)
    else if c = '\\' then
      match s with
      | [] => classLoop cls prev []
      | e :: s => classLoop (cls ++ ['\\', e]) e s
    else if c = '-' ∧ cls.getLast? ≠ some '[' ∧ prev ≠ '\x00' then classLoop (cls ++ ['-']) '\x00' s
    else if c ∈ specials then classLoop (cls ++ ['\\', c]) c s
    else classLoop (cls ++ [c]) c s

theorem length_classLoop (cls : List Char) (prev : Char) (s : List Char) :
    (classLoop cls prev s).2.length ≤ s.length := by
  induction hn : s.length using Nat.strongRecOn generalizing cls prev s with
  | _ n ih =>
    subst hn
    cases s with
    | nil => exact Nat.le_refl _
    | cons c s =>
      have hnext : ∀ (cls : List Char) (prev : Char), (classLoop cls prev s).2.length ≤ (c :: s).length :=
        fun cls prev => Nat.le_succ_of_le (ih s.length (Nat.lt_succ_self _) cls prev s rfl)
      rw [classLoop.eq_def]
      dsimp only
      split_ifs
      · exact Nat.le_succ _
      · cases s with
        | nil => exact Nat.zero_le _
        | cons e s =>
          have hrest := ih s.length (by simp only [List.length_cons]; omega) (cls ++ ['\\', e]) e s rfl
          exact Nat.le_succ_of_le (Nat.le_succ_of_le hrest)
      · exact hnext _ _
      · exact hnext _ _
      · exact hnext _ _

/-- The loop over the pattern. -/
def patternLoop : List Char → List Char
  | [] => []
  | c :: s =>
    if c = '*' then
      if s.head? = some '*' then ['.', '*'] ++ patternLoop s.tail else ['[', '^', '/', ']', '*'] ++ patternLoop s
    else if c = '?' then ['[', '^', '/', ']'] ++ patternLoop s
    else if c = '[' then
      let opened := if isNegated s then ['[', '^'] else ['[']
      (classLoop opened '\x00' (afterNegation s)).1 ++ patternLoop (classLoop opened '\x00' (afterNegation s)).2
    else if c = '\\' then
      match s with
      | [] => patternLoop []
      | e :: s => ['\\', e] ++ patternLoop s
    else if c ∈ specials then ['\\', c] ++ patternLoop s
    else [c] ++ patternLoop s
  termination_by s => s.length
  decreasing_by
    all_goals simp only [List.length_cons, List.length_tail, List.length_nil]
    all_goals first
      | omega
      | exact Nat.lt_succ_of_le (Nat.le_trans (length_classLoop _ _ _) (length_afterNegation s))

/-- `glob_to_regex` -/
def globToRegex (pattern : List Char) : List Char := '^' :: (patternLoop pattern ++ ['$'])

/-- `ntsc_glob_matches`, with the engine it compiles the expression by. -/
def ntscGlobMatches (engine : List Char → Option (List Char → Bool)) (pattern path : List Char) : Int :=
  match engine (globToRegex pattern) with
  | some isMatch => if isMatch path then 1 else 0
  | none => 0

/-! ## What is written for a pattern -/

def letterRegex : Letter → List Char
  | .plain c => if c ∈ specials then ['\\', c] else [c]
  | .escaped c => ['\\', c]

theorem length_letterRegex (l : Letter) : 0 < (letterRegex l).length := by
  cases l with
  | plain c =>
    change 0 < (if c ∈ specials then ['\\', c] else [c]).length
    split_ifs
    · exact Nat.succ_pos 1
    · exact Nat.succ_pos 0
  | escaped c => exact Nat.succ_pos 1

/-- What is written for a token, when no bracket is left open. -/
def Token.regex : Token → List Char
  | .literal c => if c ∈ specials then ['\\', c] else [c]
  | .escaped c => ['\\', c]
  | .any => ['[', '^', '/', ']']
  | .star => ['[', '^', '/', ']', '*']
  | .globstar => ['.', '*']
  | .cls negated ls => '[' :: ((if negated then ['^'] else []) ++ (ls.flatMap letterRegex ++ [']']))
  | .bracket | .backslash => []

/-- The tokens whose text means the same to the engine: escapes are of characters the engine reads as themselves,
brackets are closed, and classes are lists of characters and ordered ranges without a nested bracket, without two
of the same set operator character in a row, and with a leading closing bracket neither negated nor in a range. -/
def Token.Sound : Token → Prop
  | .literal _ | .any | .star | .globstar => True
  | .escaped c => escapable c = true
  | .cls negated ls => isUnion (entries ls) = true ∧ (negated = true → ls.head? ≠ some (.plain ']')) ∧
      ∀ m, (entries ls).head? ≠ some (.range (.plain ']') m)
  | .bracket | .backslash => False

/-- One letter goes around the loop. -/
theorem classLoop_letter {l : Letter} {cls : List Char} {prev : Char} {s : List Char} (hl : l ≠ .plain '\\')
    (hclose : l = .plain ']' → prev = '\x00' ∧ cls.length ≤ 1) :
    ∃ prev', classLoop cls prev (l.text ++ s) = classLoop (cls ++ letterRegex l) prev' s := by
  cases l with
  | escaped c => exact ⟨c, rfl⟩
  | plain c =>
    have hbackslash : c ≠ '\\' := fun h => hl (congrArg Letter.plain h)
    have hopen : ¬ (c = ']' ∧ (prev ≠ '\x00' ∨ 1 < cls.length)) := by
      rintro ⟨rfl, hc⟩
      obtain ⟨hprev, hlength⟩ := hclose rfl
      rcases hc with hc | hc
      · exact hc hprev
      · omega
    change ∃ prev', classLoop cls prev (c :: s) = classLoop (cls ++ if c ∈ specials then ['\\', c] else [c]) prev' s
    rw [classLoop.eq_def]
    dsimp only
    rw [if_neg hopen, if_neg hbackslash]
    by_cases hhyphen : c = '-' ∧ cls.getLast? ≠ some '[' ∧ prev ≠ '\x00'
    · rw [if_pos hhyphen, hhyphen.1, if_neg (by decide)]
      exact ⟨_, rfl⟩
    · rw [if_neg hhyphen]
      split_ifs with hspecial
      · exact ⟨c, rfl⟩
      · exact ⟨c, rfl⟩

theorem classLoop_letters (hls : Written false ls) {cls : List Char} (hcls : 1 < cls.length)
    (prev : Char) (s : List Char) :
    classLoop cls prev (lettersText ls ++ ']' :: s) = (cls ++ ls.flatMap letterRegex ++ [']'], s) := by
  induction ls generalizing cls prev with
  | nil =>
    change classLoop cls prev (']' :: s) = _
    rw [classLoop.eq_def]
    dsimp only
    rw [if_pos ⟨rfl, .inr hcls⟩, List.flatMap_nil, List.append_nil]
  | cons l ls ih =>
    have hrest : Written false ls := by
      cases l with
      | plain c => exact hls.2.2
      | escaped c => exact hls
    have hl : l ≠ .plain '\\' := by
      rintro rfl
      exact hls.1 rfl
    have hclose : l = .plain ']' → prev = '\x00' ∧ cls.length ≤ 1 := by
      rintro rfl
      exact absurd (hls.2.1 rfl) (by decide)
    obtain ⟨prev', hloop⟩ := classLoop_letter (s := lettersText ls ++ ']' :: s) hl hclose
    have hlonger : 1 < (cls ++ letterRegex l).length := by
      rw [List.length_append]
      omega
    rw [lettersText, List.flatMap_cons, List.append_assoc, ← lettersText, hloop, ih hrest hlonger, List.flatMap_cons,
      List.append_assoc cls]

theorem classLoop_class {negated : Bool} (hls : Written true ls)
    (hfirst : negated = true → ls.head? ≠ some (.plain ']')) (s : List Char) :
    classLoop (if negated then ['[', '^'] else ['[']) '\x00' (lettersText ls ++ ']' :: s) =
      (Token.regex (.cls negated ls), s) := by
  cases ls with
  | nil => exact absurd hls (by simp [Written])
  | cons l ls =>
    have hrest : Written false ls := by
      cases l with
      | plain c => exact hls.2.2
      | escaped c => exact hls
    have hl : l ≠ .plain '\\' := by
      rintro rfl
      exact hls.1 rfl
    have hclose : l = .plain ']' → '\x00' = '\x00' ∧ (if negated then ['[', '^'] else ['[']).length ≤ 1 := by
      rintro rfl
      cases negated with
      | true => exact absurd rfl (hfirst rfl)
      | false => exact ⟨rfl, Nat.le_refl 1⟩
    obtain ⟨prev, hloop⟩ := classLoop_letter (s := lettersText ls ++ ']' :: s) hl hclose
    have hlonger : 1 < ((if negated then ['[', '^'] else ['[']) ++ letterRegex l).length := by
      have hpos := length_letterRegex l
      rw [List.length_append]
      cases negated with
      | true => exact Nat.lt_add_right _ (Nat.lt_succ_self 1)
      | false => exact Nat.lt_add_of_pos_right hpos
    rw [lettersText, List.flatMap_cons, List.append_assoc, ← lettersText, hloop, classLoop_letters hrest hlonger,
      Token.regex, List.flatMap_cons]
    cases negated <;> simp

theorem readGlob_bracket {s rest : List Char} (h : readLetters true (afterNegation s) = some (ls, rest)) :
    readGlob ('[' :: s) = .cls (isNegated s) ls :: readGlob rest := by
  rw [readGlob.eq_def]
  simp only [show ('[' : Char) ≠ '*' by decide, show ('[' : Char) ≠ '?' by decide,
    show ('[' : Char) ≠ '\\' by decide, if_false, if_true]
  split
  · rename_i hnone
    rw [h] at hnone
    exact absurd hnone nofun
  · rename_i hsome
    obtain ⟨rfl, rfl⟩ := Prod.mk.inj (Option.some.inj (h.symm.trans hsome))
    rfl

theorem readGlob_open {s : List Char} (h : readLetters true (afterNegation s) = none) :
    readGlob ('[' :: s) = .bracket :: readGlob s := by
  rw [readGlob.eq_def]
  simp only [show ('[' : Char) ≠ '*' by decide, show ('[' : Char) ≠ '?' by decide,
    show ('[' : Char) ≠ '\\' by decide, if_false, if_true]
  split
  · rfl
  · rename_i hsome
    rw [h] at hsome
    exact absurd hsome nofun

theorem readGlob_any (s : List Char) : readGlob ('?' :: s) = .any :: readGlob s := by
  rw [readGlob.eq_def]
  rfl

theorem readGlob_star {s : List Char} (hs : s.head? ≠ some '*') : readGlob ('*' :: s) = .star :: readGlob s := by
  rw [readGlob.eq_def]
  exact if_neg hs

theorem readGlob_globstar (s : List Char) : readGlob ('*' :: '*' :: s) = .globstar :: readGlob s := by
  rw [readGlob.eq_def]
  rfl

theorem readGlob_escaped (c : Char) (s : List Char) : readGlob ('\\' :: c :: s) = .escaped c :: readGlob s := by
  rw [readGlob.eq_def]
  rfl

theorem readGlob_backslash : readGlob ['\\'] = [.backslash] := by
  rw [readGlob.eq_def]
  rfl

theorem patternLoop_any (s : List Char) : patternLoop ('?' :: s) = Token.regex .any ++ patternLoop s := by
  rw [patternLoop.eq_def]
  rfl

theorem patternLoop_star {s : List Char} (hs : s.head? ≠ some '*') :
    patternLoop ('*' :: s) = Token.regex .star ++ patternLoop s := by
  rw [patternLoop.eq_def]
  exact if_neg hs

theorem patternLoop_globstar (s : List Char) :
    patternLoop ('*' :: '*' :: s) = Token.regex .globstar ++ patternLoop s := by
  rw [patternLoop.eq_def]
  rfl

theorem patternLoop_escaped (c : Char) (s : List Char) :
    patternLoop ('\\' :: c :: s) = Token.regex (.escaped c) ++ patternLoop s := by
  rw [patternLoop.eq_def]
  rfl

theorem patternLoop_bracket {s rest : List Char} (h : readLetters true (afterNegation s) = some (ls, rest))
    (hfirst : isNegated s = true → ls.head? ≠ some (.plain ']')) :
    patternLoop ('[' :: s) = Token.regex (.cls (isNegated s) ls) ++ patternLoop rest := by
  obtain ⟨hs, hls⟩ := text_of_readLetters h
  have hclass := classLoop_class hls hfirst rest
  rw [← hs] at hclass
  rw [patternLoop.eq_def]
  change (classLoop _ _ _).1 ++ patternLoop (classLoop _ _ _).2 = _
  rw [hclass]

/-- The characters a pattern does not copy. -/
def marks : List Char := ['*', '?', '\\', '[']

variable {c : Char}

theorem readGlob_literal (hc : c ∉ marks) (s : List Char) : readGlob (c :: s) = .literal c :: readGlob s := by
  simp only [marks, List.mem_cons, List.not_mem_nil, or_false, not_or] at hc
  rw [readGlob.eq_def]
  simp only [hc.1, hc.2.1, hc.2.2.1, hc.2.2.2, if_false]

theorem patternLoop_literal (hc : c ∉ marks) (s : List Char) :
    patternLoop (c :: s) = Token.regex (.literal c) ++ patternLoop s := by
  simp only [marks, List.mem_cons, List.not_mem_nil, or_false, not_or] at hc
  rw [patternLoop.eq_def]
  simp only [hc.1, hc.2.1, hc.2.2.1, hc.2.2.2, if_false, Token.regex]
  split_ifs <;> rfl

/-- What a token is read from. -/
def Token.Valid : Token → Prop
  | .literal c => c ∉ marks
  | .cls _ ls => Written true ls
  | _ => True

theorem patternLoop_eq {s : List Char} (h : ∀ t ∈ readGlob s, t.Sound) :
    patternLoop s = (readGlob s).flatMap Token.regex ∧ ∀ t ∈ readGlob s, t.Valid := by
  induction hn : s.length using Nat.strongRecOn generalizing s with
  | _ n ih =>
    subst hn
    cases s with
    | nil =>
      rw [readGlob, patternLoop]
      exact ⟨rfl, nofun⟩
    | cons c s =>
      by_cases hc : c ∈ marks
      · simp only [marks, List.mem_cons, List.not_mem_nil, or_false] at hc
        rcases hc with rfl | rfl | rfl | rfl
        · by_cases hstar : s.head? = some '*'
          · cases s with
            | nil => exact absurd hstar nofun
            | cons d s =>
              obtain rfl : d = '*' := Option.some.inj hstar
              rw [readGlob_globstar, List.forall_mem_cons] at h ⊢
              obtain ⟨hloop, hvalid⟩ := ih s.length (by simp only [List.length_cons]; omega) h.2 rfl
              rw [patternLoop_globstar, hloop]
              exact ⟨rfl, trivial, hvalid⟩
          · rw [readGlob_star hstar, List.forall_mem_cons] at h ⊢
            obtain ⟨hloop, hvalid⟩ := ih s.length (Nat.lt_succ_self _) h.2 rfl
            rw [patternLoop_star hstar, hloop]
            exact ⟨rfl, trivial, hvalid⟩
        · rw [readGlob_any, List.forall_mem_cons] at h ⊢
          obtain ⟨hloop, hvalid⟩ := ih s.length (Nat.lt_succ_self _) h.2 rfl
          rw [patternLoop_any, hloop]
          exact ⟨rfl, trivial, hvalid⟩
        · cases s with
          | nil =>
            rw [readGlob_backslash, List.forall_mem_singleton] at h
            exact h.elim
          | cons d s =>
            rw [readGlob_escaped, List.forall_mem_cons] at h ⊢
            obtain ⟨hloop, hvalid⟩ := ih s.length (by simp only [List.length_cons]; omega) h.2 rfl
            rw [patternLoop_escaped, hloop]
            exact ⟨rfl, trivial, hvalid⟩
        · cases hread : readLetters true (afterNegation s) with
          | none =>
            rw [readGlob_open hread, List.forall_mem_cons] at h
            exact h.1.elim
          | some r =>
            rw [readGlob_bracket hread, List.forall_mem_cons] at h ⊢
            have hlength := Nat.lt_of_lt_of_le (length_of_readLetters hread) (length_afterNegation s)
            obtain ⟨hloop, hvalid⟩ := ih r.2.length (Nat.lt_succ_of_lt hlength) h.2 rfl
            rw [patternLoop_bracket hread h.1.2.1, hloop]
            exact ⟨rfl, (text_of_readLetters hread).2, hvalid⟩
      · rw [readGlob_literal hc, List.forall_mem_cons] at h ⊢
        obtain ⟨hloop, hvalid⟩ := ih s.length (Nat.lt_succ_self _) h.2 rfl
        rw [patternLoop_literal hc, hloop]
        exact ⟨rfl, hc, hvalid⟩

/-! ## How the engine reads it -/

/-- The letter that is written for a letter. -/
def regexLetter : Letter → Letter
  | .plain c => if c ∈ specials then .escaped c else .plain c
  | .escaped c => .escaped c

theorem regexLetter_plain (c : Char) :
    regexLetter (.plain c) = if c ∈ specials then .escaped c else .plain c := rfl

theorem letterRegex_plain (c : Char) : letterRegex (.plain c) = if c ∈ specials then ['\\', c] else [c] := rfl

theorem escapable_of_special (hc : c ∈ specials) : escapable c = true := by
  simp only [specials, List.mem_cons, List.not_mem_nil, or_false] at hc
  rcases hc with rfl | rfl | rfl | rfl | rfl | rfl | rfl | rfl | rfl <;> decide

theorem regexLetter_char (l : Letter) : (regexLetter l).char = l.char := by
  cases l with
  | plain c =>
    rw [regexLetter_plain]
    split_ifs <;> rfl
  | escaped c => rfl

theorem regexLetter_text (l : Letter) : (regexLetter l).text = letterRegex l := by
  cases l with
  | plain c =>
    rw [regexLetter_plain, letterRegex_plain]
    split_ifs <;> rfl
  | escaped c => rfl

variable {l : Letter}

theorem regexLetter_isLiteral (hl : l.isLiteral = true) : (regexLetter l).isLiteral = true := by
  cases l with
  | plain c =>
    rw [regexLetter_plain]
    split_ifs with hc
    · exact escapable_of_special hc
    · rfl
  | escaped c => exact hl

theorem regexLetter_eq_plain_iff (hc : c ∉ specials) : regexLetter l = .plain c ↔ l = .plain c := by
  cases l with
  | plain d =>
    rw [regexLetter_plain]
    split_ifs with hd
    · constructor
      · exact nofun
      · rintro ⟨⟩
        exact absurd hd hc
    · exact Iff.rfl
  | escaped d => exact Iff.rfl

theorem lettersText_regex (ls : List Letter) : lettersText (ls.map regexLetter) = ls.flatMap letterRegex := by
  rw [lettersText, List.flatMap_map]
  exact congrArg (ls.flatMap ·) (funext regexLetter_text)

theorem written_regex {first : Bool} (h : Written first ls) : Written first (ls.map regexLetter) := by
  induction ls generalizing first with
  | nil => exact h
  | cons l ls ih =>
    cases l with
    | plain c =>
      rw [List.map_cons, regexLetter]
      split_ifs
      · exact ih h.2.2
      · exact ⟨h.1, h.2.1, ih h.2.2⟩
    | escaped c => exact ih h

def regexEntry : Entry → Entry
  | .single l => .single (regexLetter l)
  | .range l m => .range (regexLetter l) (regexLetter m)

theorem regexEntry_mem (c : Char) (e : Entry) : (regexEntry e).mem c = e.mem c := by
  cases e with
  | single l => rw [regexEntry, Entry.mem, Entry.mem, regexLetter_char]
  | range l m => rw [regexEntry, Entry.mem, Entry.mem, regexLetter_char, regexLetter_char]

theorem entries_regex (ls : List Letter) : entries (ls.map regexLetter) = (entries ls).map regexEntry := by
  induction ls using entries.induct with
  | case1 => rfl
  | case2 l => rfl
  | case3 l m => rfl
  | case4 l m ls ih => exact congrArg (Entry.range (regexLetter l) (regexLetter m) :: ·) ih
  | case5 l d m ls hd ih =>
    have hhyphen : regexLetter d ≠ .plain '-' := mt (regexLetter_eq_plain_iff (by decide)).mp hd
    rw [List.map_cons, List.map_cons, List.map_cons, entries, entries, if_neg hhyphen, if_neg hd]
    exact congrArg (Entry.single (regexLetter l) :: ·) ih

theorem entries_single (h : ∀ m, (entries (l :: ls)).head? ≠ some (.range l m)) :
    entries (l :: ls) = .single l :: entries ls := by
  rcases ls with _ | ⟨d, _ | ⟨m, ls⟩⟩
  · rfl
  · rfl
  · by_cases hd : d = .plain '-'
    · refine absurd ?_ (h m)
      rw [entries, if_pos hd]
      rfl
    · rw [entries, if_neg hd]

theorem classEntries_regex {ls : List Letter} (h : ∀ m, (entries ls).head? ≠ some (.range (.plain ']') m)) :
    classEntries (ls.map regexLetter) = (entries ls).map regexEntry := by
  cases ls with
  | nil => rfl
  | cons l ls =>
    rw [List.map_cons, classEntries]
    by_cases hl : l = .plain ']'
    · have hsame : regexLetter l = .plain ']' := by rw [hl]; rfl
      rw [if_pos hsame, entries_single (hl ▸ h), List.map_cons, entries_regex]
      rfl
    · rw [if_neg (mt (regexLetter_eq_plain_iff (by decide)).mp hl), ← List.map_cons, entries_regex]

theorem regexLetter_operates (h : (regexLetter l).operates = true) : regexLetter l = l := by
  cases l with
  | plain c =>
    rw [regexLetter_plain] at h ⊢
    split_ifs at h ⊢
    · exact absurd h (by simp [Letter.operates])
    · rfl
  | escaped c => rfl

theorem regexEntry_first (e : Entry) : (regexEntry e).first = regexLetter e.first := by
  cases e <;> rfl

theorem not_operator {es : List Entry} (h : (l.operates && es.head?.map Entry.first == some l) = false) :
    ((regexLetter l).operates && (es.map regexEntry).head?.map Entry.first == some (regexLetter l)) = false := by
  rw [Bool.eq_false_iff] at h ⊢
  intro hboth
  obtain ⟨hoperates, hnext⟩ := Bool.and_eq_true_iff.mp hboth
  have hsame := regexLetter_operates hoperates
  rw [hsame] at hoperates hnext
  refine h (Bool.and_eq_true_iff.mpr ⟨hoperates, ?_⟩)
  cases es with
  | nil => exact hnext
  | cons e es =>
    have hfirst : regexLetter e.first = l := by
      rw [← regexEntry_first]
      exact Option.some.inj (eq_of_beq hnext)
    simp only [Letter.operates, List.mem_cons, List.not_mem_nil, or_false, decide_eq_true_eq] at hoperates
    have hplain : e.first = l := by
      rcases hoperates with rfl | rfl | rfl
      · exact (regexLetter_eq_plain_iff (by decide)).mp hfirst
      · exact (regexLetter_eq_plain_iff (by decide)).mp hfirst
      · exact (regexLetter_eq_plain_iff (by decide)).mp hfirst
    rw [List.head?_cons, Option.map_some, hplain]
    exact beq_self_eq_true _

theorem isUnion_regex {es : List Entry} (h : isUnion es = true) : isUnion (es.map regexEntry) = true := by
  induction es with
  | nil => rfl
  | cons e es ih =>
    cases e with
    | single l =>
      simp only [isUnion, Bool.and_eq_true, Bool.not_eq_true', bne_iff_ne] at h
      obtain ⟨⟨⟨hliteral, hbracket⟩, hoperator⟩, hes⟩ := h
      simp only [List.map_cons, regexEntry, isUnion, Bool.and_eq_true, Bool.not_eq_true', bne_iff_ne]
      exact ⟨⟨⟨regexLetter_isLiteral hliteral, mt (regexLetter_eq_plain_iff (by decide)).mp hbracket⟩,
        not_operator hoperator⟩, ih hes⟩
    | range l m =>
      simp only [isUnion, Bool.and_eq_true, bne_iff_ne, decide_eq_true_eq] at h
      obtain ⟨⟨⟨⟨⟨⟨hl, hm⟩, hbracket⟩, hhyphen⟩, hhyphen'⟩, hle⟩, hes⟩ := h
      simp only [List.map_cons, regexEntry, isUnion, Bool.and_eq_true, bne_iff_ne, decide_eq_true_eq,
        regexLetter_char]
      exact ⟨⟨⟨⟨⟨⟨regexLetter_isLiteral hl, regexLetter_isLiteral hm⟩,
        mt (regexLetter_eq_plain_iff (by decide)).mp hbracket⟩, mt (regexLetter_eq_plain_iff (by decide)).mp hhyphen⟩,
        mt (regexLetter_eq_plain_iff (by decide)).mp hhyphen'⟩, hle⟩, ih hes⟩

theorem regexLetter_ne (hc : c ∈ specials) (l : Letter) : regexLetter l ≠ .plain c := by
  cases l with
  | plain d =>
    rw [regexLetter_plain]
    split_ifs with hd
    · exact nofun
    · rintro ⟨⟩
      exact hd hc
  | escaped d => exact nofun

/-- What the engine matches a token by. -/
def Token.engineStep : Token → Step
  | .literal c | .escaped c => .one fun d => d == c
  | .any => .one (classMem true [.single (.plain '/')])
  | .star => .many (classMem true [.single (.plain '/')])
  | .globstar => .many fun d => d != '\n'
  | .cls negated ls => .one (classMem negated ((entries ls).map regexEntry))
  | .bracket | .backslash => .one fun _ => false

theorem classMem_regex (negated : Bool) (es : List Entry) (c : Char) :
    classMem negated (es.map regexEntry) c = classMem negated es c := by
  rw [classMem, classMem, List.any_map]
  exact congrArg (· != negated) (congrArg (es.any ·) (funext fun e => regexEntry_mem c e))

theorem classMem_slash (c : Char) : classMem true [.single (.plain '/')] c = (c != '/') := by
  by_cases hc : c = '/'
  · rw [hc]
    rfl
  · have hne : (c != '/') = true := bne_iff_ne.mpr hc
    rw [hne, classMem, List.any_cons, Entry.mem]
    simp [Letter.char, hc]

/-- The engine asks the same of the characters of a path, line feeds under `**` apart. -/
theorem Token.agree {t : Token} (ht : t.Sound) {path : List Char}
    (hline : t = .globstar → '\n' ∉ path) : Step.Agree path t.engineStep t.step := by
  cases t with
  | literal c => exact fun _ _ => rfl
  | escaped c => exact fun _ _ => rfl
  | any => exact fun c _ => classMem_slash c
  | star => exact fun c _ => classMem_slash c
  | globstar =>
    intro c hc
    have hne : c ≠ '\n' := fun h => hline rfl (h ▸ hc)
    exact bne_iff_ne.mpr hne
  | cls negated ls => exact fun c _ => classMem_regex negated (entries ls) c
  | bracket => exact ht.elim
  | backslash => exact ht.elim

/-- Nothing that is written starts with a repetition. -/
theorem head_regex {ts : List Token} (hsound : ∀ t ∈ ts, t.Sound) (hvalid : ∀ t ∈ ts, t.Valid) :
    (ts.flatMap Token.regex ++ ['$']).head? ≠ some '*' := by
  cases ts with
  | nil => decide
  | cons t ts =>
    obtain ⟨hsound, -⟩ := List.forall_mem_cons.mp hsound
    obtain ⟨hvalid, -⟩ := List.forall_mem_cons.mp hvalid
    cases t with
    | literal c =>
      rw [List.flatMap_cons, Token.regex]
      split_ifs
      · exact fun h => absurd (Option.some.inj h) (by decide)
      · intro h
        obtain rfl : c = '*' := Option.some.inj h
        exact hvalid (by decide)
    | bracket => exact hsound.elim
    | backslash => exact hsound.elim
    | _ => exact fun h => absurd (Option.some.inj h) (by decide)

theorem readAtom_slash (s : List Char) :
    readAtom ('[' :: '^' :: '/' :: ']' :: s) = some (classMem true [.single (.plain '/')], s) :=
  @readAtom_class true [.plain '/'] ⟨by decide, nofun, rfl⟩ nofun rfl s

theorem readAtom_plain (hmark : c ∉ marks) (hspecial : c ∉ specials) (s : List Char) :
    readAtom (c :: s) = some (fun d => d == c, s) := by
  simp only [marks, specials, List.mem_cons, List.not_mem_nil, or_false, not_or] at hmark hspecial
  apply readAtom_literal hspecial.1 hmark.2.2.2 hmark.2.2.1
  simp only [special, List.mem_cons, List.not_mem_nil, or_false, not_or]
  exact ⟨hmark.1, hspecial.2.2.2.1, hmark.2.1, hspecial.2.2.2.2.1, hspecial.2.2.2.2.2.1, hspecial.2.2.2.2.2.2.2.2,
    hspecial.2.2.2.2.2.2.1, hspecial.2.1, hspecial.2.2.1⟩

theorem readAtom_cls {negated : Bool} (hsound : (Token.cls negated ls).Sound)
    (hls : Written true ls) (s : List Char) :
    readAtom (Token.regex (.cls negated ls) ++ s) = some (classMem negated ((entries ls).map regexEntry), s) := by
  obtain ⟨hunion, -, hrange⟩ := hsound
  have hentries := classEntries_regex hrange
  have hfirst : negated = false → (ls.map regexLetter).head? ≠ some (.plain '^') := by
    intro _ h
    rw [List.head?_map] at h
    obtain ⟨l, -, hl⟩ := Option.map_eq_some_iff.mp h
    exact regexLetter_ne (by decide) l hl
  have hclass := readAtom_class (written_regex hls) hfirst (hentries.symm ▸ isUnion_regex hunion) s
  rw [hentries, lettersText_regex] at hclass
  rw [Token.regex, List.cons_append, List.append_assoc, List.append_assoc]
  exact hclass

theorem readSteps_regex {ts : List Token} (hsound : ∀ t ∈ ts, t.Sound) (hvalid : ∀ t ∈ ts, t.Valid) {n : ℕ}
    (hn : ts.length < n) : readSteps n (ts.flatMap Token.regex ++ ['$']) = some (ts.map Token.engineStep) := by
  induction ts generalizing n with
  | nil =>
    obtain ⟨n, rfl⟩ := Nat.exists_eq_succ_of_ne_zero (Nat.ne_of_gt hn)
    rfl
  | cons t ts ih =>
    obtain ⟨n, rfl⟩ := Nat.exists_eq_succ_of_ne_zero (Nat.ne_of_gt (Nat.zero_lt_of_lt hn))
    obtain ⟨ht, hts⟩ := List.forall_mem_cons.mp hsound
    obtain ⟨hv, hvs⟩ := List.forall_mem_cons.mp hvalid
    have hrest := ih hts hvs (Nat.lt_of_succ_lt_succ hn)
    have hhead := head_regex hts hvs
    rw [List.flatMap_cons, List.append_assoc, List.map_cons]
    cases t with
    | literal c =>
      by_cases hc : c ∈ specials
      · have hregex : Token.regex (.literal c) = ['\\', c] := if_pos hc
        rw [hregex]
        exact readSteps_one (by simp) (readAtom_escaped (escapable_of_special hc) _) hhead hrest
      · have hregex : Token.regex (.literal c) = [c] := if_neg hc
        rw [hregex]
        refine readSteps_one ?_ (readAtom_plain hv hc _) hhead hrest
        intro h
        obtain rfl : c = '$' := (List.cons.inj h).1
        exact hc (by decide)
    | escaped c => exact readSteps_one (by simp [Token.regex]) (readAtom_escaped ht _) hhead hrest
    | any => exact readSteps_one (by simp [Token.regex]) (readAtom_slash _) hhead hrest
    | star => exact readSteps_many (by simp [Token.regex]) (readAtom_slash _) hrest
    | globstar => exact readSteps_many (by simp [Token.regex]) rfl hrest
    | cls negated ls => exact readSteps_one (by simp [Token.regex]) (readAtom_cls ht hv _) hhead hrest
    | bracket => exact ht.elim
    | backslash => exact ht.elim

theorem length_regex {ts : List Token} (hsound : ∀ t ∈ ts, t.Sound) :
    ts.length ≤ (ts.flatMap Token.regex).length := by
  induction ts with
  | nil => exact Nat.le_refl _
  | cons t ts ih =>
    obtain ⟨ht, hts⟩ := List.forall_mem_cons.mp hsound
    have hpos : 0 < t.regex.length := by
      cases t with
      | literal c =>
        unfold Token.regex
        by_cases hc : c ∈ specials <;> simp [hc]
      | bracket => exact ht.elim
      | backslash => exact ht.elim
      | _ => exact Nat.succ_pos _
    have hrest := ih hts
    rw [List.flatMap_cons, List.length_append, List.length_cons]
    omega

theorem read_globToRegex {pattern : List Char} (hsound : ∀ t ∈ readGlob pattern, t.Sound) :
    Regex.read (globToRegex pattern) = some ((readGlob pattern).map Token.engineStep) := by
  obtain ⟨hloop, hvalid⟩ := patternLoop_eq hsound
  have hlength := length_regex hsound
  rw [globToRegex, Regex.read, if_pos rfl, hloop]
  apply readSteps_regex hsound hvalid
  rw [List.length_append]
  omega

/-- A pattern of sound tokens is matched as it reads, by every engine that implements the documented syntax,
unless a `**` of it would have to go over a line feed of the path. -/
theorem globMatches_iff {engine : List Char → Option (List Char → Bool)} (hengine : Documented engine)
    {pattern path : List Char} (hsound : ∀ t ∈ readGlob pattern, t.Sound)
    (hline : Token.globstar ∈ readGlob pattern → '\n' ∉ path) :
    ntscGlobMatches engine pattern path = 1 ↔ GlobMatches pattern path := by
  obtain ⟨isMatch, hcompiled, hmatch⟩ := hengine _ _ (read_globToRegex hsound)
  have hagree : List.Forall₂ (Step.Agree path) ((readGlob pattern).map Token.engineStep)
      ((readGlob pattern).map Token.step) := by
    rw [List.forall₂_map_left_iff, List.forall₂_map_right_iff, List.forall₂_same]
    exact fun t ht => Token.agree (hsound t ht) fun h => hline (h ▸ ht)
  rw [GlobMatches, ← matches_congr hagree, ← hmatch, ntscGlobMatches, hcompiled]
  cases hresult : isMatch path <;> simp [hresult]

theorem globMatches_iff_prefix :
    ntscGlobMatches (fun text => (Regex.read text).map accepts) ['a', '*'] ['a', '\n'] = 1 ↔
      GlobMatches ['a', '*'] ['a', '\n'] := by
  have hread : readGlob ['a', '*'] = [.literal 'a', .star] := by
    rw [readGlob_literal (by decide), readGlob_star (by decide), readGlob]
  apply globMatches_iff documented_accepts
  · rw [hread]
    exact List.forall_mem_cons.mpr ⟨trivial, List.forall_mem_singleton.mpr trivial⟩
  · rw [hread]
    simp

/-- `**` stops at a line feed. -/
theorem globMatches_stops_at_line : ¬ ∀ engine, Documented engine → ∀ pattern path : List Char,
    ntscGlobMatches engine pattern path = 1 ↔ GlobMatches pattern path := by
  intro hall
  have hread : readGlob ['*', '*'] = [.globstar] := by rw [readGlob_globstar, readGlob]
  have hsound : ∀ t ∈ readGlob ['*', '*'], t.Sound := by
    rw [hread]
    exact List.forall_mem_singleton.mpr trivial
  have hmatches : GlobMatches ['*', '*'] ['a', '\n', 'b'] := by
    rw [GlobMatches, hread]
    exact ⟨['a', '\n', 'b'], [], rfl, fun _ _ => rfl, rfl⟩
  have hone := (hall _ documented_accepts ['*', '*'] ['a', '\n', 'b']).mpr hmatches
  rw [ntscGlobMatches, read_globToRegex hsound, hread] at hone
  exact absurd hone (by decide)

end Neutron.Glob
