import Neutron.JsonReads

/-!
# JSON texts are accepted

A derivation of the JSON grammar over characters is a derivation of the parser's rules over their bytes. The
text rebuilt is the value's compact text with every string decoded in place: an escape gives its character,
a `\u` escape a question mark, and any other character one character for each of its bytes.
-/

namespace Neutron.JsonParser

open Json

def rebuiltPiece : Piece → List Char
  | .plain c => bytesAsChars [c]
  | .escape e => [e.char]
  | .unicode _ _ _ _ => ['?']

def rebuilt (ps : List Piece) : List Char := ps.flatMap rebuiltPiece

/-- What the parser makes of a value. -/
def rebuild (t : Node (List Piece)) : List Char := t.render fun ps => quoted (rebuilt ps)

/-! ## Bytes of characters -/

variable {c : Char}

theorem utf8_ascii (h : IsAscii c) (s : List Char) : utf8 (c :: s) = ascii c :: utf8 s := utf8_ascii_cons h s

theorem not_mem_utf8_singleton {c d : Char} (hd : IsAscii d) (hne : c ≠ d) : ascii d ∉ utf8 [c] := by
  intro hmem
  rw [utf8_cons, utf8_nil, List.append_nil] at hmem
  have hsmall : (ascii d).toNat < 128 := by
    have hbyte := toNat_byteChar (ascii d)
    rw [show byteChar (ascii d) = d from byteChar_ascii hd] at hbyte
    rw [← hbyte]
    exact hd
  by_cases hc : IsAscii c
  · rw [utf8EncodeChar_ascii hc, List.mem_singleton] at hmem
    have heq := congrArg byteChar hmem
    rw [show byteChar (ascii d) = d from byteChar_ascii hd, byteChar_ascii hc] at heq
    exact hne heq.symm
  · obtain ⟨b, b', rest, hbytes, hhigh⟩ := utf8EncodeChar_other hc
    have hle := hhigh _ (hbytes ▸ hmem)
    omega

theorem isAscii_of_isWs (h : IsWs c) : IsAscii c := by
  rcases h with rfl | rfl | rfl | rfl <;> decide

theorem skipWhitespace_utf8 {ws s : List Char} {b : UInt8} {more : Bytes} (hws : Blank ws) (hs : utf8 s = b :: more)
    (hb : isAsciiWhitespace b = false) : skipWhitespace (utf8 (ws ++ s)) = utf8 s := by
  induction ws with
  | nil =>
    rw [List.nil_append, skipWhitespace, hs]
    exact List.dropWhile_cons_of_neg (by rw [hb]; exact Bool.false_ne_true)
  | cons c ws ih =>
    have hc : IsWs c := hws c List.mem_cons_self
    have hskip : isAsciiWhitespace (ascii c) = true := by
      rcases hc with rfl | rfl | rfl | rfl <;> decide
    rw [List.cons_append, utf8_ascii (isAscii_of_isWs hc), skipWhitespace, List.dropWhile_cons_of_pos hskip]
    exact ih fun d hd => hws d (List.mem_cons_of_mem _ hd)

/-! ## Strings -/

theorem StringBody.append {bytes more rest : Bytes} {cs : List Char}
    (hbytes : ascii '"' ∉ bytes ∧ ascii '\\' ∉ bytes) (h : StringBody more cs rest) :
    StringBody (bytes ++ more) (bytes.map byteChar ++ cs) rest := by
  induction bytes with
  | nil => exact h
  | cons b bytes ih =>
    rw [List.mem_cons, List.mem_cons, not_or, not_or] at hbytes
    exact .plain (Ne.symm hbytes.1.1) (Ne.symm hbytes.2.1) (ih ⟨hbytes.1.2, hbytes.2.2⟩)

theorem isAscii_of_isHex (h : IsHex c) : IsAscii c := by
  rw [IsAscii]
  rcases h with h | h | h
  · rw [Char.isDigit, Bool.and_eq_true, decide_eq_true_iff, decide_eq_true_iff] at h
    exact Nat.lt_of_le_of_lt (UInt32.le_iff_toNat_le.mp h.2) (by decide)
  · exact Nat.lt_of_le_of_lt (UInt32.le_iff_toNat_le.mp h.2) (by decide)
  · exact Nat.lt_of_le_of_lt (UInt32.le_iff_toNat_le.mp h.2) (by decide)

/-- What the string loop reads as it is written. -/
def Readable : Piece → Prop
  | .plain c => c ≠ '"' ∧ c ≠ '\\'
  | .escape _ => True
  | .unicode h1 h2 h3 h4 => IsHex h1 ∧ IsHex h2 ∧ IsHex h3 ∧ IsHex h4

theorem readable_of_ok {ps : List Piece} (h : ∀ p ∈ ps, p.Ok) : ∀ p ∈ ps, Readable p := by
  intro p hp
  have hok := h p hp
  cases p with
  | plain c => exact hok.2
  | escape e => trivial
  | unicode h1 h2 h3 h4 => exact hok

theorem stringBody_text {ps : List Piece} (h : ∀ p ∈ ps, Readable p) (rest : Bytes) :
    StringBody (utf8 (text ps ++ ['"']) ++ rest) (rebuilt ps) rest := by
  induction ps with
  | nil => exact .close rest
  | cons p ps ih =>
    have hrest := ih fun q hq => h q (List.mem_cons_of_mem _ hq)
    have hp : Readable p := h p List.mem_cons_self
    cases p with
    | plain c =>
      have hsplit : utf8 (text (.plain c :: ps) ++ ['"']) = utf8 [c] ++ utf8 (text ps ++ ['"']) := utf8_append [c] _
      rw [hsplit, List.append_assoc]
      exact .append ⟨not_mem_utf8_singleton (by decide) hp.1, not_mem_utf8_singleton (by decide) hp.2⟩ hrest
    | escape e =>
      have hletter : IsAscii e.letter := by cases e <;> decide
      have hsplit : utf8 (text (.escape e :: ps) ++ ['"']) = ascii '\\' :: ascii e.letter :: utf8 (text ps ++ ['"']) := by
        change utf8 ('\\' :: e.letter :: (text ps ++ ['"'])) = _
        rw [utf8_ascii (by decide), utf8_ascii hletter]
      have hchar : unescaped (ascii e.letter) = e.char := by cases e <;> decide
      have hescape := StringBody.escape (e := ascii e.letter) (by cases e <;> decide) hrest
      rw [hchar] at hescape
      rw [hsplit]
      exact hescape
    | unicode h1 h2 h3 h4 =>
      obtain ⟨hh1, hh2, hh3, hh4⟩ := hp
      have hsplit : utf8 (text (.unicode h1 h2 h3 h4 :: ps) ++ ['"']) = ascii '\\' :: ascii 'u' :: ascii h1 ::
          ascii h2 :: ascii h3 :: ascii h4 :: utf8 (text ps ++ ['"']) := by
        change utf8 ('\\' :: 'u' :: h1 :: h2 :: h3 :: h4 :: (text ps ++ ['"'])) = _
        rw [utf8_ascii (by decide), utf8_ascii (by decide), utf8_ascii (isAscii_of_isHex hh1),
          utf8_ascii (isAscii_of_isHex hh2), utf8_ascii (isAscii_of_isHex hh3), utf8_ascii (isAscii_of_isHex hh4)]
      rw [hsplit]
      exact .unicode hrest

/-! ## Numbers -/

/-- What may follow a value in a text. -/
def Stops (rest : List Char) : Prop := ∀ c, rest.head? = some c → IsWs c ∨ c = ',' ∨ c = ']' ∨ c = '}'

/-- Characters the number loop goes through. -/
def Continues : Option UInt8 → List Char → Prop
  | _, [] => True
  | previous, c :: cs =>
    ((c.isDigit ∨ c = '.' ∨ c = 'e' ∨ c = 'E') ∨
      (c = '+' ∨ c = '-') ∧ (previous = some (ascii 'e') ∨ previous = some (ascii 'E'))) ∧ Continues (some (ascii c)) cs

theorem isDigit_bounds (h : c.isDigit = true) : 48 ≤ c.toNat ∧ c.toNat ≤ 57 := by
  rw [Char.isDigit, Bool.and_eq_true, decide_eq_true_iff, decide_eq_true_iff] at h
  exact ⟨UInt32.le_iff_toNat_le.mp h.1, UInt32.le_iff_toNat_le.mp h.2⟩

theorem isAscii_of_isDigit (h : c.isDigit = true) : IsAscii c := by
  have hbounds := isDigit_bounds h
  rw [IsAscii]
  omega

theorem isAsciiDigit_ascii (h : c.isDigit = true) : isAsciiDigit (ascii c) = true := by
  obtain ⟨hlow, hhigh⟩ := isDigit_bounds h
  have hbyte : (ascii c).toNat = c.toNat := by
    rw [ascii, UInt8.toNat_ofNat', Nat.mod_eq_of_lt (by omega)]
  rw [isAsciiDigit, Bool.and_eq_true, decide_eq_true_iff, decide_eq_true_iff, UInt8.le_iff_toNat_le, UInt8.le_iff_toNat_le,
    hbyte]
  exact ⟨hlow, hhigh⟩

theorem numberLoop_stops {rest : List Char} (h : Stops rest) (previous : Option UInt8) :
    numberLoop previous (utf8 rest) = ([], utf8 rest) := by
  rcases rest with _ | ⟨c, rest⟩
  · rfl
  · have hkind := h c rfl
    have hascii : IsAscii c := by
      rcases hkind with hws | rfl | rfl | rfl
      · exact isAscii_of_isWs hws
      all_goals decide
    rw [utf8_ascii hascii, numberLoop]
    refine if_neg ?_
    rcases hkind with (rfl | rfl | rfl | rfl) | rfl | rfl | rfl <;> decide

theorem numberLoop_continues {cs rest : List Char} {previous : Option UInt8} (h : Continues previous cs)
    (hrest : Stops rest) : numberLoop previous (utf8 (cs ++ rest)) = (utf8 cs, utf8 rest) := by
  induction cs generalizing previous with
  | nil => exact numberLoop_stops hrest previous
  | cons c cs ih =>
    obtain ⟨hkind, hcs⟩ := h
    have hascii : IsAscii c := by
      rcases hkind with (h | rfl | rfl | rfl) | ⟨rfl | rfl, -⟩
      · exact isAscii_of_isDigit h
      all_goals decide
    have hstep : ∀ more : Bytes, numberLoop previous (ascii c :: more) =
        (ascii c :: (numberLoop (some (ascii c)) more).1, (numberLoop (some (ascii c)) more).2) := by
      intro more
      rcases hkind with (h | rfl | rfl | rfl) | ⟨hsign, hprevious⟩
      · exact numberLoop_digit (isAsciiDigit_ascii h) previous more
      · rw [numberLoop, if_pos (by decide), if_neg (fun h => absurd h.1 (by decide))]
      · rw [numberLoop, if_pos (by decide), if_neg (fun h => absurd h.1 (by decide))]
      · rw [numberLoop, if_pos (by decide), if_neg (fun h => absurd h.1 (by decide))]
      · have hnot : ¬ ((ascii c = ascii '+' ∨ ascii c = ascii '-') ∧ previous ≠ some (ascii 'e') ∧
            previous ≠ some (ascii 'E')) := fun h => hprevious.elim h.2.1 h.2.2
        rw [numberLoop, if_pos (by rcases hsign with rfl | rfl <;> decide), if_neg hnot]
    rw [List.cons_append, utf8_ascii hascii, hstep, ih hcs, utf8_ascii hascii]

theorem continues_digits {ds cs : List Char} (hds : ∀ c ∈ ds, c.isDigit) (hcs : ∀ previous, Continues previous cs)
    (previous : Option UInt8) : Continues previous (ds ++ cs) := by
  induction ds generalizing previous with
  | nil => exact hcs previous
  | cons d ds ih =>
    exact ⟨.inl (.inl (hds d List.mem_cons_self)), ih (fun c hc => hds c (List.mem_cons_of_mem _ hc)) _⟩

theorem isAscii_of_continues {cs : List Char} {previous : Option UInt8} (h : Continues previous cs) :
    ∀ c ∈ cs, IsAscii c := by
  induction cs generalizing previous with
  | nil => exact fun c hc => absurd hc List.not_mem_nil
  | cons d cs ih =>
    intro c hc
    rcases List.mem_cons.mp hc with rfl | hc
    · rcases h.1 with (hdigit | rfl | rfl | rfl) | ⟨rfl | rfl, -⟩
      · exact isAscii_of_isDigit hdigit
      all_goals decide
    · exact ih h.2 c hc

theorem continues_exp {exp : List Char}
    (h : exp = [] ∨ ∃ e s ds, exp = e :: (s ++ ds) ∧ (e = 'e' ∨ e = 'E') ∧ (s = [] ∨ s = ['+'] ∨ s = ['-']) ∧ Digits ds)
    (previous : Option UInt8) : Continues previous exp := by
  rcases h with rfl | ⟨e, s, ds, rfl, he, hs, hds⟩
  · trivial
  · have hdigits : ∀ previous, Continues previous ds := fun previous => by
      have hnil : ∀ previous, Continues previous [] := fun _ => trivial
      have hall := continues_digits hds.2 hnil previous
      rwa [List.append_nil] at hall
    have hletter : some (ascii e) = some (ascii 'e') ∨ some (ascii e) = some (ascii 'E') := by
      rcases he with rfl | rfl
      · exact .inl rfl
      · exact .inr rfl
    refine ⟨.inl (.inr (.inr he)), ?_⟩
    rcases hs with rfl | rfl | rfl
    · exact hdigits _
    · exact ⟨.inr ⟨.inl rfl, hletter⟩, hdigits _⟩
    · exact ⟨.inr ⟨.inr rfl, hletter⟩, hdigits _⟩

theorem continues_frac {frac exp : List Char} (h : frac = [] ∨ ∃ ds, frac = '.' :: ds ∧ Digits ds)
    (hexp : ∀ previous, Continues previous exp) (previous : Option UInt8) : Continues previous (frac ++ exp) := by
  rcases h with rfl | ⟨ds, rfl, hds⟩
  · exact hexp previous
  · exact ⟨.inl (.inr (.inl rfl)), continues_digits hds.2 hexp _⟩

theorem digits_of_int {int : List Char} (h : int = ['0'] ∨ Digits int ∧ int.head? ≠ some '0') : Digits int := by
  rcases h with rfl | h
  · exact ⟨List.cons_ne_nil _ _, fun c hc => by rw [List.mem_singleton.mp hc]; decide⟩
  · exact h.1

/-- A number is a sign and characters the loop goes through, the first of them a digit. -/
theorem split_isNumber {digits : List Char} (h : IsNumber digits) : ∃ d cs,
    (digits = d :: cs ∨ digits = '-' :: d :: cs) ∧ d.isDigit ∧ ∀ previous, Continues previous (d :: cs) := by
  obtain ⟨sign, int, frac, exp, hsign, hint, hfrac, hexp⟩ := h
  obtain ⟨hne, hall⟩ := digits_of_int hint
  have hcontinues := continues_digits hall (continues_frac hfrac (continues_exp hexp))
  obtain ⟨d, int, rfl⟩ := List.exists_cons_of_ne_nil hne
  refine ⟨d, int ++ (frac ++ exp), ?_, hall d List.mem_cons_self, hcontinues⟩
  rcases hsign with rfl | rfl
  · exact .inl (by simp)
  · exact .inr (by simp)

theorem isAscii_of_isNumber {digits : List Char} (h : IsNumber digits) : ∀ c ∈ digits, IsAscii c := by
  obtain ⟨d, cs, hdigits, -, hcontinues⟩ := split_isNumber h
  have hall := isAscii_of_continues (hcontinues none)
  rcases hdigits with rfl | rfl
  · exact hall
  · intro c hc
    rcases List.mem_cons.mp hc with rfl | hc
    · decide
    · exact hall c hc

/-- A number is one longest run where it may stop. -/
theorem numberRun_number {digits rest : List Char} (h : IsNumber digits) (hrest : Stops rest) :
    ∃ b more, utf8 (digits ++ rest) = b :: more ∧ (b = ascii '-' ∨ isAsciiDigit b = true) ∧
      numberRun (b :: more) = (utf8 digits, utf8 rest) := by
  obtain ⟨d, cs, hdigits, hd, hcontinues⟩ := split_isNumber h
  have hloop := fun previous => numberLoop_continues (hcontinues previous) hrest
  rcases hdigits with rfl | rfl
  · have hdigit := isAsciiDigit_ascii hd
    refine ⟨ascii d, utf8 (cs ++ rest), utf8_ascii (isAscii_of_isDigit hd) _, .inr hdigit, ?_⟩
    rw [numberRun, if_neg fun heq => absurd (heq ▸ hdigit) (by decide), ← utf8_ascii (isAscii_of_isDigit hd)]
    exact hloop none
  · refine ⟨ascii '-', utf8 (d :: cs ++ rest), utf8_ascii (by decide) _, .inl rfl, ?_⟩
    rw [numberRun, if_pos rfl, hloop, utf8_ascii (c := '-') (by decide)]

/-! ## Values -/

/-- What a value starts with. -/
def Opens (c : Char) : Prop :=
  c = '"' ∨ c = '{' ∨ c = '[' ∨ c = 't' ∨ c = 'f' ∨ c = 'n' ∨ c = '-' ∨ c.isDigit

theorem opens_of_isNumber {digits : List Char} (h : IsNumber digits) : ∃ c cs, digits = c :: cs ∧ Opens c := by
  obtain ⟨d, cs, hdigits, hd, -⟩ := split_isNumber h
  rcases hdigits with rfl | rfl
  · exact ⟨d, cs, rfl, by simp [Opens, hd]⟩
  · exact ⟨'-', d :: cs, rfl, by simp [Opens]⟩

variable {t : Node (List Piece)}

theorem opens_of_derives {s rest : List Char} (h : Derives (.value t) s rest) :
    ∃ c cs, s = c :: cs ∧ Opens c := by
  cases h with
  | null => exact ⟨_, _, rfl, by simp [Opens]⟩
  | true => exact ⟨_, _, rfl, by simp [Opens]⟩
  | false => exact ⟨_, _, rfl, by simp [Opens]⟩
  | num rest hnumber =>
    obtain ⟨c, cs, rfl, hc⟩ := opens_of_isNumber hnumber
    exact ⟨c, cs ++ rest, rfl, hc⟩
  | str => exact ⟨_, _, rfl, by simp [Opens]⟩
  | emptyArr => exact ⟨_, _, rfl, by simp [Opens]⟩
  | arr => exact ⟨_, _, rfl, by simp [Opens]⟩
  | emptyObj => exact ⟨_, _, rfl, by simp [Opens]⟩
  | obj => exact ⟨_, _, rfl, by simp [Opens]⟩

theorem Opens.spec (h : Opens c) :
    IsAscii c ∧ isAsciiWhitespace (ascii c) = false ∧ ascii c ≠ ascii ']' ∧ ascii c ≠ ascii '}' := by
  rcases h with rfl | rfl | rfl | rfl | rfl | rfl | rfl | h
  · decide
  · decide
  · decide
  · decide
  · decide
  · decide
  · decide
  · obtain ⟨hlow, hhigh⟩ := isDigit_bounds h
    have hbyte : (ascii c).toNat = c.toNat := by
      rw [ascii, UInt8.toNat_ofNat', Nat.mod_eq_of_lt (by omega)]
    have hne : ∀ b : UInt8, b.toNat < 48 ∨ 57 < b.toNat → ascii c ≠ b := by
      rintro b hb rfl
      rw [hbyte] at hb
      omega
    refine ⟨isAscii_of_isDigit h, ?_, hne _ (by decide), hne _ (by decide)⟩
    rw [isAsciiWhitespace]
    simp only [Bool.or_eq_false_iff, beq_eq_false_iff_ne]
    exact ⟨⟨⟨⟨hne _ (by decide), hne _ (by decide)⟩, hne _ (by decide)⟩, hne _ (by decide)⟩, hne _ (by decide)⟩

theorem skipWhitespace_value {ws s rest : List Char} (hws : Blank ws)
    (h : Derives (.value t) s rest) : skipWhitespace (utf8 (ws ++ s)) = utf8 s := by
  obtain ⟨c, cs, rfl, hc⟩ := opens_of_derives h
  exact skipWhitespace_utf8 hws (utf8_ascii hc.spec.1 cs) hc.spec.2.1

theorem skipWhitespace_mark {ws : List Char} (hws : Blank ws) (hc : IsAscii c)
    (hmark : isAsciiWhitespace (ascii c) = false) (s : List Char) :
    skipWhitespace (utf8 (ws ++ c :: s)) = ascii c :: utf8 s := by
  rw [skipWhitespace_utf8 hws (utf8_ascii hc s) hmark, utf8_ascii hc]

theorem stops_append {ws : List Char} (hws : Blank ws) {rest : List Char} (hrest : Stops rest) : Stops (ws ++ rest) := by
  intro c hc
  rcases ws with _ | ⟨d, ws⟩
  · exact hrest c hc
  · rw [List.cons_append, List.head?_cons, Option.some.injEq] at hc
    exact .inl (hc ▸ hws d List.mem_cons_self)

theorem stops_cons {c : Char} (h : c = ',' ∨ c = ']' ∨ c = '}') (s : List Char) : Stops (c :: s) := by
  intro d hd
  rw [List.head?_cons, Option.some.injEq] at hd
  exact .inr (hd ▸ h)

/-- What the parser's rules read where the grammar derives a value, elements or members. -/
def Accepted : Goal → List Char → List Char → Prop
  | .value t, s, rest => Stops rest → Reads .value (utf8 s) [rebuild t] (utf8 rest)
  | .elements ts, s, rest => (skipWhitespace (utf8 s)).head? ≠ some (ascii ']') ∧
      Reads .elements (skipWhitespace (utf8 s)) (ts.renders fun ps => quoted (rebuilt ps)) (utf8 rest)
  | .members ms, s, rest => (skipWhitespace (utf8 s)).head? ≠ some (ascii '}') ∧
      Reads .members (skipWhitespace (utf8 s)) (ms.renders fun ps => quoted (rebuilt ps)) (utf8 rest)

theorem reads_of_skip {bytes bytes' rest : Bytes} {outs : List (List Char)} (h : Reads .value bytes outs rest)
    (hskip : skipWhitespace bytes' = skipWhitespace bytes) : Reads .value bytes' outs rest := by
  cases h with
  | word hword h => exact .word hword (hskip.trans h)
  | number h hb => exact .number (hskip.trans h) hb
  | string h hs => exact .string (hskip.trans h) hs
  | emptyArray h hclose => exact .emptyArray (hskip.trans h) hclose
  | array h hopen hes => exact .array (hskip.trans h) hopen hes
  | emptyObject h hclose => exact .emptyObject (hskip.trans h) hclose
  | object h hopen hms => exact .object (hskip.trans h) hopen hms

theorem reads_word {word : List Char} (hword : word ∈ words) (rest : List Char) :
    Reads .value (utf8 (word ++ rest)) [word] (utf8 rest) := by
  refine .word hword ?_
  rw [← utf8_append]
  rw [words, List.mem_cons, List.mem_cons, List.mem_singleton] at hword
  rcases hword with rfl | rfl | rfl <;> rfl

theorem reads_string {ps : List Piece} (h : ∀ p ∈ ps, Readable p) (rest : List Char) :
    Reads .value (utf8 (quoted (text ps) ++ rest)) [quoted (rebuilt ps)] (utf8 rest) := by
  have hquoted : utf8 (quoted (text ps) ++ rest) = ascii '"' :: (utf8 (text ps ++ ['"']) ++ utf8 rest) := by
    rw [quoted, List.cons_append, utf8_ascii (by decide), utf8_append]
  have hskip : skipWhitespace (utf8 (quoted (text ps) ++ rest)) = ascii '"' :: (utf8 (text ps ++ ['"']) ++ utf8 rest) := by
    rw [hquoted]
    exact List.dropWhile_cons_of_neg (by decide)
  exact .string hskip (stringBody_text h _)

theorem reads_number {digits rest : List Char} (h : IsNumber digits) (hrest : Stops rest) :
    Reads .value (utf8 (digits ++ rest)) [digits] (utf8 rest) := by
  obtain ⟨b, more, hbytes, hb, hrun⟩ := numberRun_number h hrest
  have hskip : skipWhitespace (utf8 (digits ++ rest)) = b :: more := by
    have hvalue := skipWhitespace_value blank_nil (.num rest h)
    rw [List.nil_append] at hvalue
    rw [hvalue, hbytes]
  have hreads := Reads.number hskip hb
  rw [hrun] at hreads
  have hchars : (utf8 digits).map byteChar = digits := bytesAsChars_eq_self_iff.mpr (isAscii_of_isNumber h)
  rw [hchars] at hreads
  exact hreads

/-- A member's key, up to its value. -/
theorem key_of_text {k : List Piece} {ws1 : List Char} (hk : ∀ p ∈ k, p.Ok) (hws1 : Blank ws1) (s : List Char) :
    ∃ body more, utf8 (quoted (text k) ++ (ws1 ++ ':' :: s)) = ascii '"' :: body ∧
      StringBody body (rebuilt k) more ∧ skipWhitespace more = ascii ':' :: utf8 s := by
  refine ⟨utf8 (text k ++ ['"']) ++ utf8 (ws1 ++ ':' :: s), utf8 (ws1 ++ ':' :: s), ?_, stringBody_text (readable_of_ok hk) _,
    skipWhitespace_mark hws1 (by decide) (by decide) s⟩
  rw [quoted, List.cons_append, utf8_ascii (by decide), utf8_append]

theorem accepted_of_derives {g : Goal} {s rest : List Char} (h : Derives g s rest) : Accepted g s rest := by
  induction h with
  | null rest => exact fun _ => reads_word (by simp [words]) rest
  | true rest => exact fun _ => reads_word (by simp [words]) rest
  | false rest => exact fun _ => reads_word (by simp [words]) rest
  | num rest hnumber => exact fun hrest => reads_number hnumber hrest
  | str rest hok => exact fun _ => reads_string (readable_of_ok hok) rest
  | emptyArr rest hws =>
    intro _
    rw [utf8_ascii (by decide)]
    exact .emptyArray (List.dropWhile_cons_of_neg (by decide)) (skipWhitespace_mark hws (by decide) (by decide) rest)
  | arr _ ih =>
    intro _
    rw [utf8_ascii (by decide)]
    exact .array (List.dropWhile_cons_of_neg (by decide)) ih.1 ih.2
  | emptyObj rest hws =>
    intro _
    rw [utf8_ascii (by decide)]
    exact .emptyObject (List.dropWhile_cons_of_neg (by decide)) (skipWhitespace_mark hws (by decide) (by decide) rest)
  | obj _ ih =>
    intro _
    rw [utf8_ascii (by decide)]
    exact .object (List.dropWhile_cons_of_neg (by decide)) ih.1 ih.2
  | lastElement rest hws ht hws' ih =>
    have hreads := ih (stops_append hws' (stops_cons (by simp) rest))
    have hskip := skipWhitespace_value hws ht
    obtain ⟨c, cs, rfl, hc⟩ := opens_of_derives ht
    refine ⟨?_, ?_⟩
    · rw [hskip, utf8_ascii hc.spec.1]
      exact fun hhead => hc.spec.2.2.1 (Option.some.inj hhead)
    · rw [hskip]
      exact .lastElement hreads (skipWhitespace_mark hws' (by decide) (by decide) rest)
  | @element t ts ws ws' s s' rest hws ht hws' _ iht ihts =>
    have hreads := iht (stops_append hws' (stops_cons (by simp) s'))
    have hskip := skipWhitespace_value hws ht
    obtain ⟨c, cs, rfl, hc⟩ := opens_of_derives ht
    refine ⟨?_, ?_⟩
    · rw [hskip, utf8_ascii hc.spec.1]
      exact fun hhead => hc.spec.2.2.1 (Option.some.inj hhead)
    · rw [hskip]
      exact .element hreads (skipWhitespace_mark hws' (by decide) (by decide) s') ihts.2
  | lastMember rest hws hk hws1 hws2 ht hws' ih =>
    have hreads := ih (stops_append hws' (stops_cons (by simp) rest))
    obtain ⟨body, more, hquote, hbody, hcolon⟩ := key_of_text hk hws1 _
    rw [Accepted, skipWhitespace_utf8 hws hquote (by decide), hquote]
    refine ⟨fun hhead => absurd (Option.some.inj hhead) (by decide), ?_⟩
    refine .lastMember hbody hcolon ?_ (skipWhitespace_mark hws' (by decide) (by decide) rest)
    rw [skipWhitespace_value hws2 ht]
    exact hreads
  | @member k t ms ws ws1 ws2 ws' s s' rest hws hk hws1 hws2 ht hws' _ iht ihms =>
    have hreads := iht (stops_append hws' (stops_cons (by simp) s'))
    obtain ⟨body, more, hquote, hbody, hcolon⟩ := key_of_text hk hws1 _
    rw [Accepted, skipWhitespace_utf8 hws hquote (by decide), hquote]
    refine ⟨fun hhead => absurd (Option.some.inj hhead) (by decide), ?_⟩
    refine .member hbody hcolon ?_ (skipWhitespace_mark hws' (by decide) (by decide) s') ihms.2
    rw [skipWhitespace_value hws2 ht]
    exact hreads

theorem stops_blank {ws : List Char} (h : Blank ws) : Stops ws :=
  fun c hc => .inl (h c (List.mem_of_mem_head? hc))

/-- Every JSON text is read, as its value, with nothing but whitespace left. -/
theorem reads_of_text {s : List Char} (h : Text s t) :
    ∃ ws, Blank ws ∧ Reads .value (utf8 s) [rebuild t] (utf8 ws) := by
  obtain ⟨ws, s', ws', rfl, hws, ht, hws'⟩ := h
  refine ⟨ws', hws', reads_of_skip (accepted_of_derives ht (stops_blank hws')) ?_⟩
  have hskip := skipWhitespace_value blank_nil ht
  rw [List.nil_append] at hskip
  rw [skipWhitespace_value hws ht, hskip]

theorem ntscJsonParse_text {s : List Char} (h : Text s t) : ntscJsonParse s = .ok (rebuild t) := by
  obtain ⟨ws, -, hreads⟩ := reads_of_text h
  rw [ntscJsonParse, parse_eq_ok_iff.mpr hreads]

/-- A text is judged right if and only if it is JSON or no value is read off its front. -/
theorem ntscJsonIsValid_exact_iff (s : List Char) :
    (ntscJsonIsValid s = true ↔ IsJson s) ↔ (IsJson s ∨ ¬ ∃ out rest, Reads .value (utf8 s) [out] rest) := by
  have haccepts : IsJson s → ∃ out rest, Reads .value (utf8 s) [out] rest := by
    rintro ⟨t, ht⟩
    obtain ⟨ws, -, hreads⟩ := reads_of_text ht
    exact ⟨rebuild t, utf8 ws, hreads⟩
  rw [ntscJsonIsValid_iff]
  constructor
  · intro hiff
    by_cases hjson : IsJson s
    · exact .inl hjson
    · exact .inr fun hreads => hjson (hiff.mp hreads)
  · rintro (hjson | hnot)
    · exact ⟨fun _ => hjson, haccepts⟩
    · exact ⟨fun hreads => absurd hreads hnot, haccepts⟩

/-- A text after the value is not looked at. -/
theorem ntscJsonIsValid_trailing : ¬ (ntscJsonIsValid ['1', ' ', 'x'] = true ↔ IsJson ['1', ' ', 'x']) := by
  intro hiff
  have hparse : parse ['1', ' ', 'x'] = .ok (['1'], utf8 [' ', 'x']) := rfl
  have hvalid : ntscJsonIsValid ['1', ' ', 'x'] = true := by rw [ntscJsonIsValid, hparse]
  obtain ⟨t, ht⟩ := hiff.mp hvalid
  obtain ⟨ws, hws, hreads⟩ := reads_of_text ht
  have hrest : utf8 [' ', 'x'] = utf8 ws :=
    congrArg Prod.snd (Except.ok.inj (hparse.symm.trans (parse_eq_ok_iff.mpr hreads)))
  have hsome := (fromUtf8?_utf8 [' ', 'x']).symm.trans ((congrArg fromUtf8? hrest).trans (fromUtf8?_utf8 ws))
  rw [← Option.some.inj hsome] at hws
  exact absurd (hws 'x' (by simp)) (by simp [IsWs])

end Neutron.JsonParser
