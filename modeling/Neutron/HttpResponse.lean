import Neutron.IntegerText
import Neutron.JsonLookup

/-!
# The envelope of an HTTP response

`make_response` puts the status and the body of a response into a JSON text, and
`ntsc_http_status_code` reads the status back. The body has its quotes and line feeds replaced and
nothing else, so a backslash of the body starts an escape of the JSON string.
-/

namespace Neutron.Http

open Json RuntimeText

/-- The replacements on the body, in their order. -/
def replaced (body : List Char) : List Char := replaceChar '\n' ['\\', 'n'] (replaceChar '"' ['\\', '"'] body)

/-- `make_response` -/
def makeResponse (status : Int64) (body : List Char) : List Char :=
  '{' :: ("\"status\":".toList ++ (formatInt status.toInt
    ++ (",\"body\":\"".toList ++ (replaced body ++ ['"', '}']))))

/-- `ntsc_http_status_code` -/
def ntscHttpStatusCode (response : List Char) : Int :=
  match JsonParser.findStr "\"status\":".toList response with
  | some (_, rest) => (parseI64 (rest.takeWhile fun c => c.isDigit || c == '-')).getD 0
  | none => 0

def keyUnits (name : String) : List ℕ := name.toList.flatMap utf16

/-- The text is valid JSON, its status member is the number and its body member decodes to the body. -/
def Carries (status : Int64) (body text : List Char) : Prop :=
  ∃ ms, Text text (.obj ms) ∧ ms.lookup (keyUnits "status") = some (.num (formatInt status.toInt))
    ∧ ∃ ps, ms.lookup (keyUnits "body") = some (.str ps) ∧ units ps = body.flatMap utf16

/-- A character the two replacements are enough for. -/
def Transparent (c : Char) : Prop := c ≠ '\\' ∧ (0x20 ≤ c.toNat ∨ c = '\n')

instance (c : Char) : Decidable (Transparent c) := inferInstanceAs (Decidable (_ ∧ _))

/-! ## The status -/

theorem inRange_status (status : Int64) : InRange status.toInt := ⟨status.le_toInt, status.toInt_lt⟩

theorem formatInt_chars (n : Int) : ∀ c ∈ formatInt n, (c.isDigit || c == '-') = true := by
  intro c hc
  rw [formatInt] at hc
  split at hc
  · rcases List.mem_cons.mp hc with rfl | hc
    · rfl
    · rw [isDigit_of_mem_digits hc, Bool.true_or]
  · rw [isDigit_of_mem_digits hc, Bool.true_or]

theorem findStr_prefix (pat s : List Char) : JsonParser.findStr pat (pat ++ s) = some ([], s) := by
  have hprefix : pat.isPrefixOf (pat ++ s) = true := List.isPrefixOf_iff_prefix.mpr (List.prefix_append pat s)
  cases happend : pat ++ s with
  | nil =>
    obtain ⟨rfl, rfl⟩ := List.append_eq_nil_iff.mp happend
    rfl
  | cons c more =>
    rw [happend] at hprefix
    rw [JsonParser.findStr, if_pos hprefix, ← happend, List.drop_left]

/-- The first member name is the one that is found, whatever the body contains. -/
theorem ntscHttpStatusCode_makeResponse (status : Int64) (body : List Char) :
    ntscHttpStatusCode (makeResponse status body) = status.toInt := by
  have hfind : JsonParser.findStr "\"status\":".toList (makeResponse status body)
      = some (['{'], formatInt status.toInt ++ (",\"body\":\"".toList ++ (replaced body ++ ['"', '}']))) := by
    rw [makeResponse, JsonParser.findStr, if_neg (by simp [List.isPrefixOf]), findStr_prefix]
    rfl
  have htake : (formatInt status.toInt ++ (",\"body\":\"".toList ++ (replaced body ++ ['"', '}']))).takeWhile
      (fun c => c.isDigit || c == '-') = formatInt status.toInt := by
    rw [List.takeWhile_append_of_pos (formatInt_chars _)]
    exact List.append_nil _
  rw [ntscHttpStatusCode, hfind]
  simp only [htake, parseI64_formatInt (inRange_status status), Option.getD_some]

/-! ## Bodies that come through -/

def replacedChar (c : Char) : List Char :=
  if c = '"' then ['\\', '"'] else if c = '\n' then ['\\', 'n'] else [c]

theorem replaced_eq (body : List Char) : replaced body = body.flatMap replacedChar := by
  rw [replaced, replaceChar, replaceChar, List.flatMap_assoc]
  congr 1
  funext c
  unfold replacedChar
  by_cases hquote : c = '"'
  · subst hquote
    rfl
  · rw [if_neg hquote, if_neg hquote, List.flatMap_singleton]

theorem replaced_cons (c : Char) (body : List Char) : replaced (c :: body) = replacedChar c ++ replaced body := by
  rw [replaced_eq, replaced_eq, List.flatMap_cons]

theorem replaced_quote (body : List Char) : replaced ('"' :: body) = '\\' :: '"' :: replaced body :=
  replaced_cons '"' body

theorem replaced_break (body : List Char) : replaced ('\n' :: body) = '\\' :: 'n' :: replaced body :=
  replaced_cons '\n' body

theorem replaced_other {c : Char} (hquote : c ≠ '"') (hbreak : c ≠ '\n') (body : List Char) :
    replaced (c :: body) = c :: replaced body := by
  rw [replaced_cons, replacedChar, if_neg hquote, if_neg hbreak]
  rfl

def bodyPiece (c : Char) : Piece :=
  if c = '"' then .escape .quote else if c = '\n' then .escape .n else .plain c

theorem bodyPiece_text (c : Char) : (bodyPiece c).text = replacedChar c := by
  unfold bodyPiece replacedChar
  split_ifs <;> rfl

theorem bodyPiece_units (c : Char) : (bodyPiece c).units = utf16 c := by
  unfold bodyPiece
  split_ifs with hquote hbreak
  · rw [hquote]
    rfl
  · rw [hbreak]
    rfl
  · rfl

theorem bodyPiece_ok {c : Char} (h : Transparent c) : (bodyPiece c).Ok := by
  unfold bodyPiece
  split_ifs with hquote hbreak
  · trivial
  · trivial
  · exact ⟨h.2.resolve_right hbreak, hquote, h.1⟩

theorem text_bodyPieces (body : List Char) : text (body.map bodyPiece) = replaced body := by
  rw [replaced_eq, text, List.flatMap_map]
  congr 1
  funext c
  exact bodyPiece_text c

theorem units_bodyPieces (body : List Char) : units (body.map bodyPiece) = body.flatMap utf16 := by
  rw [units, List.flatMap_map]
  congr 1
  funext c
  exact bodyPiece_units c

def statusKey : List Piece := "status".toList.map Piece.plain

def bodyKey : List Piece := "body".toList.map Piece.plain

variable {body : List Char}

theorem carries_of_transparent (h : ∀ c ∈ body, Transparent c) (status : Int64) :
    Carries status body (makeResponse status body) := by
  let ms : Members (List Piece) := .cons statusKey (.num (formatInt status.toInt))
    (.cons bodyKey (.str (body.map bodyPiece)) .nil)
  have hbody : ∀ p ∈ body.map bodyPiece, p.Ok := by
    intro p hp
    obtain ⟨c, hc, rfl⟩ := List.mem_map.mp hp
    exact bodyPiece_ok (h c hc)
  have hnumber : IsNumber (formatInt status.toInt) := formatInt_eq_toString status.toInt ▸ isNumber_int status.toInt
  have hok : WellFormed (.obj ms) := ⟨plain_ok (forall_of_all (by decide)), hnumber,
    plain_ok (forall_of_all (by decide)), hbody, trivial⟩
  have hstatus : text statusKey = "status".toList := JsonParser.text_plain _
  have hname : text bodyKey = "body".toList := JsonParser.text_plain _
  have hcompact : compact (.obj ms) = makeResponse status body := by
    simp [ms, compact, Node.render, Members.renders, List.intercalate, quoted, text_bodyPieces, makeResponse,
      hstatus, hname]
  refine ⟨ms, hcompact ▸ text_compact hok, rfl, body.map bodyPiece, rfl, units_bodyPieces body⟩

/-! ## Bodies that do not -/

theorem Piece.plain_of_text {p : Piece} {c : Char} (hc : c ≠ '\\') {s t : List Char} (h : p.text ++ s = c :: t) :
    p = .plain c ∧ s = t := by
  cases p with
  | plain d =>
    obtain ⟨rfl, rfl⟩ := List.cons.inj h
    exact ⟨rfl, rfl⟩
  | escape e => exact absurd (List.cons.inj h).1.symm hc
  | unicode => exact absurd (List.cons.inj h).1.symm hc

theorem Piece.escape_of_text {p : Piece} (hok : p.Ok) {s t : List Char} (h : p.text ++ s = '\\' :: t) :
    (∃ e, p = .escape e ∧ e.letter :: s = t)
      ∨ ∃ h1 h2 h3 h4, p = .unicode h1 h2 h3 h4 ∧ (IsHex h1 ∧ IsHex h2 ∧ IsHex h3 ∧ IsHex h4)
        ∧ 'u' :: h1 :: h2 :: h3 :: h4 :: s = t := by
  cases p with
  | plain c => exact absurd (List.cons.inj h).1 hok.2.2
  | escape e => exact .inl ⟨e, rfl, (List.cons.inj h).2⟩
  | unicode h1 h2 h3 h4 => exact .inr ⟨h1, h2, h3, h4, rfl, hok, (List.cons.inj h).2⟩

variable {ps : List Piece}

/-- The first piece of a string whose text goes on. -/
theorem exists_piece {rest t : List Char} {c : Char} (hc : c ≠ '"') (h : text ps ++ '"' :: rest = c :: t) :
    ∃ p ps', ps = p :: ps' ∧ p.text ++ (text ps' ++ '"' :: rest) = c :: t := by
  cases ps with
  | nil => exact absurd (List.cons.inj h).1.symm hc
  | cons p ps => exact ⟨p, ps, rfl, by rw [← h, text_cons, List.append_assoc]⟩

theorem eq_nil_of_quote (hps : ∀ p ∈ ps, p.Ok) {rest t : List Char}
    (h : text ps ++ '"' :: rest = '"' :: t) : ps = [] := by
  cases ps with
  | nil => rfl
  | cons p ps =>
    rw [text_cons, List.append_assoc] at h
    exact absurd h (Piece.text_ne_quote (hps p List.mem_cons_self) _ _)

theorem plain_prefix {word more body tail : List Char} (hword : ∀ c ∈ word, c ≠ '"' ∧ c ≠ '\\')
    (h : word ++ more = replaced body ++ '"' :: tail) :
    ∃ body', body = word ++ body' ∧ more = replaced body' ++ '"' :: tail := by
  induction word generalizing body with
  | nil => exact ⟨body, rfl, h⟩
  | cons c word ih =>
    obtain ⟨hquote, hbackslash⟩ := hword c List.mem_cons_self
    rcases body with _ | ⟨d, body⟩
    · exact absurd (List.cons.inj h).1 hquote
    · by_cases hd : d = '"'
      · rw [hd, replaced_quote] at h
        exact absurd (List.cons.inj h).1 hbackslash
      · by_cases hd' : d = '\n'
        · rw [hd', replaced_break] at h
          exact absurd (List.cons.inj h).1 hbackslash
        · rw [replaced_other hd hd'] at h
          obtain ⟨rfl, hnext⟩ := List.cons.inj h
          obtain ⟨body', rfl, hmore⟩ := ih (fun e he => hword e (List.mem_cons_of_mem c he)) hnext
          exact ⟨body', rfl, hmore⟩

/-- A string read off the envelope is at most as long as the body, and it is the body only when no
character of the body starts an escape or is a control character. -/
def Within (body : List Char) (ps : List Piece) : Prop :=
  (units ps).length ≤ (body.flatMap utf16).length ∧ (units ps = body.flatMap utf16 → ∀ c ∈ body, Transparent c)

theorem Within.cons {c : Char} {p : Piece} (h : Within body ps)
    (hunits : p.units = utf16 c) (hc : Transparent c) : Within (c :: body) (p :: ps) := by
  constructor
  · rw [units_cons, hunits, List.flatMap_cons, List.length_append, List.length_append]
    exact Nat.add_le_add_left h.1 _
  · intro heq
    rw [units_cons, hunits, List.flatMap_cons] at heq
    exact List.forall_mem_cons.mpr ⟨hc, h.2 (List.append_cancel_left heq)⟩

theorem Within.of_lt (h : (units ps).length < (body.flatMap utf16).length) : Within body ps := by
  refine ⟨h.le, fun heq => ?_⟩
  rw [heq] at h
  exact absurd h (Nat.lt_irrefl _)

theorem length_escape_units (e : Escape) (ps : List Piece) :
    (units (.escape e :: ps)).length = (units ps).length + 1 := by
  have hone : (utf16 e.char).length = 1 := by cases e <;> rfl
  rw [units_cons, List.length_append, Nat.add_comm]
  exact congrArg _ hone

theorem length_units_cons (c : Char) (body : List Char) :
    ((body.flatMap utf16).length + 1 ≤ ((c :: body).flatMap utf16).length) := by
  have hpos := List.length_pos_of_ne_nil (JsonParser.utf16_ne_nil c)
  rw [List.flatMap_cons, List.length_append]
  omega

theorem length_units_append (word body : List Char) :
    (body.flatMap utf16).length + word.length ≤ ((word ++ body).flatMap utf16).length := by
  induction word with
  | nil => exact Nat.le_refl _
  | cons c word ih =>
    have hcons := length_units_cons c (word ++ body)
    rw [List.cons_append, List.length_cons]
    omega

/-- After a backslash of the body the string takes at least one more character of the envelope. -/
theorem within_backslash {p : Piece} {rest tail : List Char} (hp : p.Ok)
    (hps : ∀ q ∈ ps, q.Ok) (htail : '"' ∉ tail)
    (h : p.text ++ (text ps ++ '"' :: rest) = '\\' :: (replaced body ++ '"' :: tail))
    (ih : ∀ body' ps', body'.length < body.length + 1 → (∀ q ∈ ps', q.Ok) →
      text ps' ++ '"' :: rest = replaced body' ++ '"' :: tail → Within body' ps') :
    Within ('\\' :: body) (p :: ps) := by
  rcases Piece.escape_of_text hp h with ⟨e, rfl, hnext⟩ | ⟨h1, h2, h3, h4, rfl, hhex, hnext⟩
  · rcases body with _ | ⟨d, body⟩
    · obtain ⟨-, hmore⟩ := List.cons.inj hnext
      rw [← hmore] at htail
      exact absurd (List.mem_append_right _ List.mem_cons_self) htail
    have hcons := length_units_cons d body
    have hcons' := length_units_cons '\\' (d :: body)
    by_cases hquote : d = '"'
    · subst hquote
      rw [replaced_quote] at hnext
      rw [eq_nil_of_quote hps (List.cons.inj hnext).2]
      apply Within.of_lt
      rw [length_escape_units]
      change 1 < _
      omega
    by_cases hbreak : d = '\n'
    · subst hbreak
      rw [replaced_break] at hnext
      obtain ⟨hletter, hmore⟩ := List.cons.inj hnext
      obtain ⟨q, ps, rfl, hq⟩ := exists_piece (by decide) hmore
      obtain ⟨rfl, hrest⟩ := Piece.plain_of_text (by decide) hq
      have hall : ∀ r ∈ ps, r.Ok := fun r hr => hps r (List.mem_cons_of_mem _ hr)
      have hwithin := ih body ps (by rw [List.length_cons]; omega) hall hrest
      obtain rfl : e = .backslash := by
        cases e <;> first | rfl | exact absurd hletter (by decide)
      constructor
      · rw [length_escape_units, units_cons, List.length_append]
        change 1 + _ + 1 ≤ _
        have hle := hwithin.1
        omega
      · -- the line feed comes back as a letter
        intro heq
        have hsecond := (List.cons.inj (List.cons.inj heq).2).1
        exact absurd hsecond (by decide)
    · rw [replaced_other hquote hbreak] at hnext
      have hwithin := ih body ps (by rw [List.length_cons]; omega) hps (List.cons.inj hnext).2
      apply Within.of_lt
      rw [length_escape_units]
      have hle := hwithin.1
      omega
  · have hword : ∀ c ∈ ['u', h1, h2, h3, h4], c ≠ '"' ∧ c ≠ '\\' := by
      simp only [List.forall_mem_cons]
      exact ⟨by decide, isHex_ne hhex.1, isHex_ne hhex.2.1, isHex_ne hhex.2.2.1, isHex_ne hhex.2.2.2, by simp⟩
    obtain ⟨body', rfl, hmore⟩ := plain_prefix hword hnext
    have hwithin := ih body' ps (by simp; omega) hps hmore
    apply Within.of_lt
    have hcons := length_units_cons '\\' (['u', h1, h2, h3, h4] ++ body')
    have happend := length_units_append ['u', h1, h2, h3, h4] body'
    have hle := hwithin.1
    rw [units_cons, List.length_append]
    change 1 + _ < _
    simp only [List.length_cons, List.length_nil] at happend
    omega

theorem within_of_read {rest tail : List Char} (hps : ∀ p ∈ ps, p.Ok)
    (htail : '"' ∉ tail) (h : text ps ++ '"' :: rest = replaced body ++ '"' :: tail) : Within body ps := by
  induction hsize : body.length using Nat.strongRecOn generalizing body ps with
  | _ size ih =>
  rcases body with _ | ⟨c, body⟩
  · rw [eq_nil_of_quote hps h]
    exact ⟨Nat.le_refl 0, fun _ c hc => absurd hc List.not_mem_nil⟩
  subst hsize
  by_cases hquote : c = '"'
  · subst hquote
    rw [replaced_quote] at h
    obtain ⟨p, ps, rfl, hp⟩ := exists_piece (by decide) h
    obtain ⟨hok, hall⟩ := List.forall_mem_cons.mp hps
    rcases Piece.escape_of_text hok hp with ⟨e, rfl, hnext⟩ | ⟨_, _, _, _, _, _, hnext⟩
    · obtain ⟨hletter, hmore⟩ := List.cons.inj hnext
      obtain rfl : e = .quote := by
        cases e <;> first | rfl | exact absurd hletter (by decide)
      have hwithin := ih body.length (Nat.lt_succ_self _) hall hmore rfl
      exact hwithin.cons rfl (by decide)
    · exact absurd (List.cons.inj hnext).1 (by decide)
  by_cases hbreak : c = '\n'
  · subst hbreak
    rw [replaced_break] at h
    obtain ⟨p, ps, rfl, hp⟩ := exists_piece (by decide) h
    obtain ⟨hok, hall⟩ := List.forall_mem_cons.mp hps
    rcases Piece.escape_of_text hok hp with ⟨e, rfl, hnext⟩ | ⟨_, _, _, _, _, _, hnext⟩
    · obtain ⟨hletter, hmore⟩ := List.cons.inj hnext
      obtain rfl : e = .n := by
        cases e <;> first | rfl | exact absurd hletter (by decide)
      have hwithin := ih body.length (Nat.lt_succ_self _) hall hmore rfl
      exact hwithin.cons rfl (by decide)
    · exact absurd (List.cons.inj hnext).1 (by decide)
  rw [replaced_other hquote hbreak, List.cons_append] at h
  obtain ⟨p, ps, rfl, hp⟩ := exists_piece hquote h
  obtain ⟨hok, hall⟩ := List.forall_mem_cons.mp hps
  by_cases hbackslash : c = '\\'
  · subst hbackslash
    exact within_backslash hok hall htail hp fun body' ps' hlt hps' hread => ih _ hlt hps' hread rfl
  · obtain ⟨rfl, hmore⟩ := Piece.plain_of_text hbackslash hp
    have hwithin := ih body.length (Nat.lt_succ_self _) hall hmore rfl
    exact hwithin.cons rfl ⟨hbackslash, .inl hok.1⟩

theorem text_plain {word rest more : List Char} (hps : ∀ p ∈ ps, p.Ok)
    (hword : ∀ c ∈ word, c ≠ '"' ∧ c ≠ '\\') (h : text ps ++ '"' :: rest = word ++ '"' :: more) :
    ps = word.map Piece.plain ∧ rest = more := by
  induction word generalizing ps with
  | nil =>
    obtain rfl := eq_nil_of_quote hps h
    exact ⟨rfl, (List.cons.inj h).2⟩
  | cons c word ih =>
    obtain ⟨hquote, hbackslash⟩ := hword c List.mem_cons_self
    obtain ⟨p, ps, rfl, hp⟩ := exists_piece hquote h
    obtain ⟨rfl, hmore⟩ := Piece.plain_of_text hbackslash hp
    obtain ⟨rfl, rfl⟩ := ih (List.forall_mem_cons.mp hps).2 (List.forall_mem_cons.mp hword).2 hmore
    exact ⟨rfl, rfl⟩

theorem not_isWs {c : Char} (h : c = '"' ∨ c = ':' ∨ c = ',' ∨ c = '{' ∨ c = '-' ∨ c.isDigit = true) : ¬ IsWs c := by
  rintro (rfl | rfl | rfl | rfl) <;> exact absurd h (by decide)

theorem key_of_member {word value s ws ws1 ws2 : List Char} {k : List Piece}
    (hword : ∀ c ∈ word, c ≠ '"' ∧ c ≠ '\\') (hws : Blank ws) (hk : ∀ p ∈ k, p.Ok) (hws1 : Blank ws1)
    (h : '"' :: (word ++ '"' :: ':' :: value) = ws ++ (quoted (text k) ++ (ws1 ++ ':' :: (ws2 ++ s)))) :
    k = word.map Piece.plain ∧ value = ws2 ++ s := by
  obtain ⟨rfl, hkey⟩ := JsonParser.blank_before hws (not_isWs (.inl rfl)) h.symm
  have hread : text k ++ '"' :: (ws1 ++ ':' :: (ws2 ++ s)) = word ++ '"' :: ':' :: value := by
    rw [← List.singleton_append, ← List.append_assoc]
    exact (List.cons.inj hkey).2
  obtain ⟨rfl, hcolon⟩ := text_plain hk hword hread
  obtain ⟨-, hvalue⟩ := JsonParser.blank_before hws1 (not_isWs (.inr (.inl rfl))) hcolon
  exact ⟨rfl, (List.cons.inj hvalue).2.symm⟩

/-- The first member of an object whose text starts with a plain key. -/
theorem derives_first (word : List Char) {value rest : List Char} {ms : Members (List Piece)}
    (hword : ∀ c ∈ word, c ≠ '"' ∧ c ≠ '\\')
    (h : Derives (.members ms) ('"' :: (word ++ '"' :: ':' :: value)) rest) :
    ∃ t ms' ws s ws' after, ms = .cons (word.map Piece.plain) t ms' ∧ value = ws ++ s ∧ Blank ws ∧ Blank ws'
      ∧ ((ms' = .nil ∧ Derives (.value t) s (ws' ++ '}' :: rest))
        ∨ Derives (.value t) s (ws' ++ ',' :: after) ∧ Derives (.members ms') after rest) := by
  generalize hs : '"' :: (word ++ '"' :: ':' :: value) = s at h
  cases h with
  | @lastMember k t ws ws1 ws2 ws' s _ hws hk hws1 hws2 ht hws' =>
    obtain ⟨rfl, hvalue⟩ := key_of_member hword hws hk hws1 hs
    exact ⟨t, .nil, ws2, s, ws', [], rfl, hvalue, hws2, hws', .inl ⟨rfl, ht⟩⟩
  | @member k t ms ws ws1 ws2 ws' s after _ hws hk hws1 hws2 ht hws' hms =>
    obtain ⟨rfl, hvalue⟩ := key_of_member hword hws hk hws1 hs
    exact ⟨t, ms, ws2, s, ws', after, rfl, hvalue, hws2, hws', .inr ⟨ht, hms⟩⟩

theorem derives_string {s rest : List Char} (h : Derives (.value (.str ps)) s rest) :
    (∀ p ∈ ps, p.Ok) ∧ s = quoted (text ps) ++ rest := by
  cases h with
  | str _ hps => exact ⟨hps, rfl⟩

theorem derives_number {digits s rest : List Char} (h : Derives (.value (.num digits)) s rest) :
    s = digits ++ rest := by
  cases h with
  | num => rfl

theorem read_body {body ws s rest : List Char} (hws : Blank ws)
    (hvalue : '"' :: (replaced body ++ ['"', '}']) = ws ++ s) (h : Derives (.value (.str ps)) s rest) :
    Within body ps := by
  obtain ⟨hps, rfl⟩ := derives_string h
  obtain ⟨-, hread⟩ := JsonParser.blank_before hws (not_isWs (.inl rfl)) hvalue.symm
  have hstring : text ps ++ '"' :: rest = replaced body ++ '"' :: ['}'] := by
    rw [← List.singleton_append, ← List.append_assoc]
    exact (List.cons.inj hread).2
  exact within_of_read hps (by decide) hstring

theorem formatInt_head (n : Int) : ∃ c cs, formatInt n = c :: cs ∧ ¬ IsWs c := by
  have hne : formatInt n ≠ [] := by
    rw [formatInt]
    split
    · exact List.cons_ne_nil _ _
    · exact Nat.toDigits_ne_nil
  obtain ⟨c, cs, hcs⟩ := List.exists_cons_of_ne_nil hne
  have hc := formatInt_chars n c (hcs ▸ List.mem_cons_self)
  rw [Bool.or_eq_true, beq_iff_eq] at hc
  refine ⟨c, cs, hcs, not_isWs ?_⟩
  rcases hc with hc | hc
  · exact .inr (.inr (.inr (.inr (.inr hc))))
  · exact .inr (.inr (.inr (.inr (.inl hc))))

theorem statusKey_lookup (t : Node (List Piece)) (ms : Members (List Piece)) :
    (Members.cons ("status".toList.map Piece.plain) t ms).lookup (keyUnits "status") = some t
      ∧ (Members.cons ("status".toList.map Piece.plain) t ms).lookup (keyUnits "body")
        = ms.lookup (keyUnits "body") := by
  constructor
  · rw [Members.lookup, if_pos (by decide)]
  · rw [Members.lookup, if_neg (by decide)]

theorem bodyKey_lookup (t : Node (List Piece)) (ms : Members (List Piece)) :
    (Members.cons ("body".toList.map Piece.plain) t ms).lookup (keyUnits "body") = some t := by
  rw [Members.lookup, if_pos (by decide)]

theorem transparent_of_carries {status : Int64}
    (h : Carries status body (makeResponse status body)) : ∀ c ∈ body, Transparent c := by
  obtain ⟨ms, ⟨ws, s, rest, hs, hws, hvalue, -⟩, hstatus, ps, hbody, hunits⟩ := h
  obtain ⟨-, hopen⟩ := JsonParser.blank_before hws (not_isWs (by decide)) hs.symm
  rw [hopen] at hvalue
  generalize htext : '{' :: ("\"status\":".toList ++ (formatInt status.toInt
    ++ (",\"body\":\"".toList ++ (replaced body ++ ['"', '}'])))) = text at hvalue
  cases hvalue with
  | emptyObj => exact absurd hstatus nofun
  | obj hmembers =>
    rw [← (List.cons.inj htext).2] at hmembers
    obtain ⟨t, ms, ws, s, ws', after, rfl, hvalue, hws, hws', hread⟩ :=
      derives_first "status".toList (forall_of_all (by decide)) hmembers
    rw [(statusKey_lookup t ms).1, Option.some.injEq] at hstatus
    rw [(statusKey_lookup t ms).2] at hbody
    subst hstatus
    rcases hread with ⟨rfl, -⟩ | ⟨hnumber, hmembers⟩
    · exact absurd hbody nofun
    rw [derives_number hnumber] at hvalue
    obtain ⟨c, cs, hcs, hc⟩ := formatInt_head status.toInt
    rw [hcs] at hvalue
    obtain ⟨-, hafter⟩ := JsonParser.blank_before hws hc hvalue.symm
    have hcomma := List.append_cancel_left (List.cons.inj hafter).2
    obtain ⟨-, hnext⟩ := JsonParser.blank_before hws' (not_isWs (by decide)) hcomma
    rw [(List.cons.inj hnext).2] at hmembers
    obtain ⟨t, ms, ws, s, ws', after, rfl, hvalue, hws, hws', hread⟩ :=
      derives_first "body".toList (forall_of_all (by decide)) hmembers
    rw [bodyKey_lookup, Option.some.injEq] at hbody
    subst hbody
    rcases hread with ⟨-, hstring⟩ | ⟨hstring, -⟩
    · exact (read_body hws hvalue hstring).2 hunits
    · exact (read_body hws hvalue hstring).2 hunits

/-- A response comes through its envelope exactly when its body has no backslash and no control
character but line feeds. -/
theorem makeResponse_carries_iff (status : Int64) (body : List Char) :
    (Carries status body (makeResponse status body)
        ∧ ntscHttpStatusCode (makeResponse status body) = status.toInt)
      ↔ ∀ c ∈ body, Transparent c := by
  constructor
  · intro h
    exact transparent_of_carries h.1
  · intro h
    exact ⟨carries_of_transparent h status, ntscHttpStatusCode_makeResponse status body⟩

/-- A Windows path. -/
theorem makeResponse_loses_backslash :
    ¬ (Carries 200 ['C', ':', '\\', 'n'] (makeResponse 200 ['C', ':', '\\', 'n'])
      ∧ ntscHttpStatusCode (makeResponse 200 ['C', ':', '\\', 'n']) = 200) := by
  intro h
  have hbackslash := transparent_of_carries h.1 '\\' (by simp)
  exact hbackslash.1 rfl

end Neutron.Http
