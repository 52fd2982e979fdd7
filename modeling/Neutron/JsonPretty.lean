import Neutron.JsonLookup

/-!
# Pretty-printed JSON

`ntsc_json_stringify_pretty` goes over the characters of a text once, with a flag that says whether it is
inside a string and with the depth of the brackets. Every quote turns the flag, escaped quotes too, so
after an escaped quote the rest of a string is laid out as if it were outside of one.
-/

namespace Neutron.Json

open JsonParser

/-- `in_string` and `indent`, an `i32`. -/
structure Printer where
  inString : Bool
  indent : Int32

/-- `for _ in 0..indent` -/
def spaces (indent : Int32) : List Char := (List.replicate indent.toInt.toNat [' ', ' ']).flatten

/-- What one character pushes, and the state after it. -/
def Printer.step (p : Printer) (ch : Char) : List Char × Printer :=
  if ch = '"' then ([ch], { p with inString := !p.inString })
  else if p.inString then ([ch], p)
  else if ch = '{' ∨ ch = '[' then (ch :: '\n' :: spaces (p.indent + 1), { p with indent := p.indent + 1 })
  else if ch = '}' ∨ ch = ']' then
    ('\n' :: spaces (p.indent - 1) ++ [ch], { p with indent := p.indent - 1 })
  else if ch = ',' then (ch :: '\n' :: spaces p.indent, p)
  else if ch = ':' then ([':', ' '], p)
  else if ch = ' ' then ([], p)
  else ([ch], p)

def Printer.print (p : Printer) : List Char → List Char
  | [] => []
  | ch :: rest => (p.step ch).1 ++ (p.step ch).2.print rest

def Printer.after (p : Printer) : List Char → Printer
  | [] => p
  | ch :: rest => (p.step ch).2.after rest

/-- `ntsc_json_stringify_pretty` -/
def ntscJsonStringifyPretty (json : List Char) : List Char := (Printer.mk false 0).print json

/-! ## What the flag does to a string -/

/-- The pieces that turn the flag. -/
def Piece.toggles : Piece → Bool
  | .escape .quote => true
  | _ => false

/-- The flag after the pieces of a string. -/
def flagAfter (inString : Bool) (ps : List Piece) : Bool := ps.foldl (fun flag p => flag ^^ p.toggles) inString

/-- The units of a string come through: with the flag off it has none of the brackets and commas, and the
only plain spaces are those a colon is followed by, which are dropped and written again. `owed` is the
space that was written after a colon and not dropped yet. -/
def Kept : Bool → Bool → List Piece → Prop
  | _, owed, [] => owed = false
  | inString, owed, .escape e :: ps => owed = false ∧ Kept (inString ^^ (Piece.escape e).toggles) false ps
  | true, owed, .plain _ :: ps => owed = false ∧ Kept true false ps
  | true, owed, .unicode _ _ _ _ :: ps => owed = false ∧ Kept true false ps
  | false, owed, .plain c :: ps =>
    if c = ' ' then owed = true ∧ Kept false false ps
    else if c = ':' then owed = false ∧ Kept false true ps
    else owed = false ∧ c ∉ ['{', '[', '}', ']', ','] ∧ Kept false false ps
  | false, owed, .unicode h1 h2 h3 h4 :: ps =>
    if (Piece.unicode h1 h2 h3 h4).units = [0x20] then Kept false owed ps else owed = false ∧ Kept false false ps

/-- The flag after the strings of a text, each between its quotes. -/
def leave (inString : Bool) (strings : List (List Piece)) : Bool :=
  strings.foldl (fun flag ps => !(flagAfter (!flag) ps)) inString

/-- Every string comes through with the flag it is met with. -/
def Met : Bool → List (List Piece) → Prop
  | _, [] => True
  | inString, ps :: strings => Kept (!inString) false ps ∧ Met (!(flagAfter (!inString) ps)) strings

section

variable {σ τ : Type}

mutual

/-- The keys and strings of a value in the order they are written. -/
def Node.strings : Node σ → List σ
  | .null | .bool _ | .num _ => []
  | .str s => [s]
  | .arr ts => ts.strings
  | .obj ms => ms.strings

def Nodes.strings : Nodes σ → List σ
  | .nil => []
  | .cons t ts => t.strings ++ ts.strings

def Members.strings : Members σ → List σ
  | .nil => []
  | .cons k t ms => k :: (t.strings ++ ms.strings)

end

mutual

theorem Node.strings_map (f : σ → τ) : ∀ t : Node σ, (t.map f).strings = t.strings.map f
  | .null | .bool _ | .num _ | .str _ => rfl
  | .arr ts => Nodes.strings_map f ts
  | .obj ms => Members.strings_map f ms

theorem Nodes.strings_map (f : σ → τ) : ∀ ts : Nodes σ, (ts.map f).strings = ts.strings.map f
  | .nil => rfl
  | .cons t ts => by
    rw [Nodes.map, Nodes.strings, Node.strings_map f t, Nodes.strings_map f ts, ← List.map_append]
    rfl

theorem Members.strings_map (f : σ → τ) : ∀ ms : Members σ, (ms.map f).strings = ms.strings.map f
  | .nil => rfl
  | .cons k t ms => by
    rw [Members.map, Members.strings, Node.strings_map f t, Members.strings_map f ms, ← List.map_append]
    rfl

end

end

theorem met_append (inString : Bool) (ss ts : List (List Piece)) :
    Met inString (ss ++ ts) ↔ Met inString ss ∧ Met (leave inString ss) ts := by
  induction ss generalizing inString with
  | nil => exact (iff_of_eq (true_and _)).symm
  | cons ps ss ih => exact (and_congr_right' (ih _)).trans and_assoc.symm

theorem leave_cons (inString : Bool) (ps : List Piece) (ss : List (List Piece)) :
    leave inString (ps :: ss) = leave (!(flagAfter (!inString) ps)) ss := rfl

theorem leave_append (inString : Bool) (ss ts : List (List Piece)) :
    leave inString (ss ++ ts) = leave (leave inString ss) ts := List.foldl_append

/-! ## One character -/

/-- A character that is copied whatever the flag is. -/
def Ordinary (c : Char) : Prop := c ∉ ['"', '{', '[', '}', ']', ',', ':', ' ']

instance (c : Char) : Decidable (Ordinary c) := instDecidableNot

variable {c : Char}

theorem Printer.step_ordinary (p : Printer) (h : Ordinary c) : p.step c = ([c], p) := by
  simp only [Ordinary, List.mem_cons, List.not_mem_nil, or_false, not_or] at h
  obtain ⟨h1, h2, h3, h4, h5, h6, h7, h8⟩ := h
  simp only [Printer.step, h1, h2, h3, h4, h5, h6, h7, h8, or_self, if_false, ite_self]

variable {p : Printer}

theorem Printer.step_inside (hp : p.inString = true) (hc : c ≠ '"') : p.step c = ([c], p) := by
  rw [Printer.step, if_neg hc, if_pos hp]

theorem Printer.step_inString (p : Printer) (c : Char) :
    (p.step c).2.inString = (p.inString ^^ decide (c = '"')) := by
  unfold Printer.step
  by_cases hc : c = '"'
  · simp [hc]
  · simp only [if_neg hc, decide_eq_false hc, Bool.xor_false]
    split_ifs <;> rfl

theorem blank_spaces (indent : Int32) : Blank ('\n' :: spaces indent) := by
  intro c hc
  rcases List.mem_cons.mp hc with rfl | hc
  · exact .inr (.inr (.inl rfl))
  · obtain ⟨w, hw, hc⟩ := List.mem_flatten.mp hc
    rw [List.eq_of_mem_replicate hw] at hc
    simp only [List.mem_cons, List.not_mem_nil, or_false, or_self] at hc
    exact .inl hc

theorem blank_append {v w : List Char} (hv : Blank v) (hw : Blank w) : Blank (v ++ w) := by
  intro c hc
  rcases List.mem_append.mp hc with hc | hc
  · exact hv c hc
  · exact hw c hc

/-- Outside of the strings a text is only spread out, with either flag. -/
theorem Printer.step_open (p : Printer) {c : Char} (hc : c ∈ ['{', '[', ',', ':']) :
    ∃ ws q, Blank ws ∧ q.inString = p.inString ∧ p.step c = (c :: ws, q) := by
  by_cases hp : p.inString = true
  · refine ⟨[], p, blank_nil, rfl, Printer.step_inside hp ?_⟩
    rintro rfl
    exact absurd hc (by decide)
  · simp only [List.mem_cons, List.not_mem_nil, or_false] at hc
    rcases hc with rfl | rfl | rfl | rfl
    · exact ⟨_, ⟨p.inString, p.indent + 1⟩, blank_spaces (p.indent + 1), rfl, by simp [Printer.step, hp]⟩
    · exact ⟨_, ⟨p.inString, p.indent + 1⟩, blank_spaces (p.indent + 1), rfl, by simp [Printer.step, hp]⟩
    · exact ⟨_, p, blank_spaces p.indent, rfl, by simp [Printer.step, hp]⟩
    · exact ⟨[' '], p, by simp [Blank, IsWs], rfl, by simp [Printer.step, hp]⟩

theorem Printer.step_close (p : Printer) {c : Char} (hc : c ∈ ['}', ']']) :
    ∃ ws q, Blank ws ∧ q.inString = p.inString ∧ p.step c = (ws ++ [c], q) := by
  by_cases hp : p.inString = true
  · refine ⟨[], p, blank_nil, rfl, Printer.step_inside hp ?_⟩
    rintro rfl
    exact absurd hc (by decide)
  · simp only [List.mem_cons, List.not_mem_nil, or_false] at hc
    rcases hc with rfl | rfl
    · exact ⟨_, ⟨p.inString, p.indent - 1⟩, blank_spaces (p.indent - 1), rfl, by simp [Printer.step, hp]⟩
    · exact ⟨_, ⟨p.inString, p.indent - 1⟩, blank_spaces (p.indent - 1), rfl, by simp [Printer.step, hp]⟩

theorem Printer.step_blank (p : Printer) (hc : IsWs c) : ∃ ws, Blank ws ∧ p.step c = (ws, p) := by
  by_cases hspace : c = ' ' ∧ p.inString = false
  · obtain ⟨rfl, hp⟩ := hspace
    exact ⟨[], blank_nil, by simp [Printer.step, hp]⟩
  · refine ⟨[c], by simpa [Blank] using hc, ?_⟩
    by_cases hp : p.inString = true
    · refine Printer.step_inside hp ?_
      rintro rfl
      exact absurd hc (by simp [IsWs])
    · apply Printer.step_ordinary
      rcases hc with rfl | rfl | rfl | rfl
      · exact absurd ⟨rfl, Bool.not_eq_true _ ▸ hp⟩ hspace
      all_goals decide

/-! ## Runs of characters -/

variable {ws : List Char}

theorem Printer.print_blank (hws : Blank ws) (p : Printer) (s : List Char) :
    ∃ ws', Blank ws' ∧ p.print (ws ++ s) = ws' ++ p.print s := by
  induction ws with
  | nil => exact ⟨[], blank_nil, rfl⟩
  | cons c ws ih =>
    obtain ⟨hc, hws⟩ := List.forall_mem_cons.mp hws
    obtain ⟨more, hmore, hprint⟩ := ih hws
    obtain ⟨out, hout, hstep⟩ := p.step_blank hc
    refine ⟨out ++ more, blank_append hout hmore, ?_⟩
    rw [List.cons_append, Printer.print, hstep, hprint, List.append_assoc]

theorem Printer.print_open (p : Printer) (hc : c ∈ ['{', '[', ',', ':']) :
    ∃ (ws : List Char) (q : Printer), Blank ws ∧ q.inString = p.inString ∧
      ∀ s, p.print (c :: s) = c :: (ws ++ q.print s) := by
  obtain ⟨ws, q, hws, hq, hstep⟩ := p.step_open hc
  refine ⟨ws, q, hws, hq, fun s => ?_⟩
  rw [Printer.print, hstep, List.cons_append]

theorem Printer.print_close (p : Printer) {c : Char} (hc : c ∈ ['}', ']']) :
    ∃ (ws : List Char) (q : Printer), Blank ws ∧ q.inString = p.inString ∧
      ∀ s, p.print (c :: s) = ws ++ c :: q.print s := by
  obtain ⟨ws, q, hws, hq, hstep⟩ := p.step_close hc
  refine ⟨ws, q, hws, hq, fun s => ?_⟩
  rw [Printer.print, hstep, List.append_assoc, List.singleton_append]

variable {w : List Char}

theorem Printer.print_ordinary (hw : ∀ c ∈ w, Ordinary c) (p : Printer) (s : List Char) :
    p.print (w ++ s) = w ++ p.print s := by
  induction w with
  | nil => rfl
  | cons c w ih =>
    obtain ⟨hc, hw⟩ := List.forall_mem_cons.mp hw
    rw [List.cons_append, Printer.print, p.step_ordinary hc, ih hw]
    rfl

theorem Printer.after_ordinary (hw : ∀ c ∈ w, Ordinary c) (p : Printer) : p.after w = p := by
  induction w with
  | nil => rfl
  | cons c w ih =>
    obtain ⟨hc, hw⟩ := List.forall_mem_cons.mp hw
    rw [Printer.after, p.step_ordinary hc, ih hw]

theorem ordinary_of_isHex (h : IsHex c) : Ordinary c := by
  intro hc
  have hnone : ∀ d ∈ ['"', '{', '[', '}', ']', ',', ':', ' '], ¬ IsHex d := forall_of_all (by decide)
  exact hnone c hc h

theorem ordinary_of_isNumber {digits : List Char} (h : IsNumber digits) : ∀ c ∈ digits, Ordinary c := by
  have hdigits : ∀ {ds : List Char}, (∀ c ∈ ds, c.isDigit) → ∀ c ∈ ds, Ordinary c := fun hds c hc =>
    ordinary_of_isHex (.inl (hds c hc))
  obtain ⟨sign, int, frac, exp, hsign, hint, hfrac, hexp⟩ := h
  simp only [List.forall_mem_append]
  refine ⟨⟨⟨?_, hdigits (digits_of_int hint).2⟩, ?_⟩, ?_⟩
  · rcases hsign with rfl | rfl <;> exact forall_of_all (by decide)
  · rcases hfrac with rfl | ⟨ds, rfl, hds⟩
    · exact nofun
    · exact List.forall_mem_cons.mpr ⟨by decide, hdigits hds.2⟩
  · rcases hexp with rfl | ⟨e, s, ds, rfl, he, hs, hds⟩
    · exact nofun
    · refine List.forall_mem_cons.mpr ⟨?_, List.forall_mem_append.mpr ⟨?_, hdigits hds.2⟩⟩
      · rcases he with rfl | rfl <;> decide
      · rcases hs with rfl | rfl | rfl <;> exact forall_of_all (by decide)

/-! ## Strings -/

/-- What becomes of one piece. -/
def Printer.piece (p : Printer) : Piece → List Piece
  | .plain c => (p.step c).1.map .plain
  | .escape e => [.escape e]
  | .unicode h1 h2 h3 h4 => [.unicode h1 h2 h3 h4]

def Printer.pieces (p : Printer) : List Piece → List Piece
  | [] => []
  | q :: ps => p.piece q ++ (p.after q.text).pieces ps

theorem Printer.step_letter (p : Printer) (e : Escape) :
    (p.step e.letter).1 = [e.letter] ∧ (p.step e.letter).2.inString = (p.inString ^^ (Piece.escape e).toggles) := by
  cases e with
  | quote => exact ⟨rfl, (p.step_inString '"').trans rfl⟩
  | _ =>
    rw [p.step_ordinary (by decide)]
    exact ⟨rfl, (Bool.xor_false _).symm⟩

theorem ordinary_backslash : Ordinary '\\' := by decide

theorem ordinary_unicode {h1 h2 h3 h4 : Char} (h : (Piece.unicode h1 h2 h3 h4).Ok) :
    ∀ c ∈ (Piece.unicode h1 h2 h3 h4).text, Ordinary c := by
  obtain ⟨hh1, hh2, hh3, hh4⟩ := h
  have hu : Ordinary 'u' := by decide
  simp only [Piece.text, List.forall_mem_cons]
  exact ⟨ordinary_backslash, hu, ordinary_of_isHex hh1, ordinary_of_isHex hh2, ordinary_of_isHex hh3,
    ordinary_of_isHex hh4, List.forall_mem_nil _⟩

theorem Printer.print_piece {q : Piece} (hq : q.Ok) (p : Printer) (s : List Char) :
    p.print (q.text ++ s) = text (p.piece q) ++ (p.after q.text).print s := by
  cases q with
  | plain c => exact congrArg (· ++ (p.step c).2.print s) (text_plain _).symm
  | escape e =>
    change (p.step '\\').1 ++ (((p.step '\\').2.step e.letter).1 ++ _) = _
    rw [p.step_ordinary ordinary_backslash, (p.step_letter e).1]
    change _ = _ ++ (((p.step '\\').2.step e.letter).2.print s)
    rw [p.step_ordinary ordinary_backslash]
    rfl
  | unicode h1 h2 h3 h4 =>
    rw [p.print_ordinary (ordinary_unicode hq), p.after_ordinary (ordinary_unicode hq)]
    rfl

theorem Printer.after_piece {q : Piece} (hq : q.Ok) (p : Printer) :
    (p.after q.text).inString = (p.inString ^^ q.toggles) := by
  cases q with
  | plain c =>
    change (p.step c).2.inString = _
    rw [p.step_inString, decide_eq_false hq.2.1]
    rfl
  | escape e =>
    change ((p.step '\\').2.step e.letter).2.inString = _
    rw [p.step_ordinary ordinary_backslash, (p.step_letter e).2]
  | unicode h1 h2 h3 h4 =>
    rw [p.after_ordinary (ordinary_unicode hq)]
    exact (Bool.xor_false _).symm

variable {ps : List Piece}

theorem Printer.print_pieces (hps : ∀ q ∈ ps, q.Ok) (p : Printer) (s : List Char) :
    ∃ q : Printer, q.inString = flagAfter p.inString ps ∧
      p.print (text ps ++ s) = text (p.pieces ps) ++ q.print s := by
  induction ps generalizing p with
  | nil => exact ⟨p, rfl, rfl⟩
  | cons r ps ih =>
    obtain ⟨hr, hps⟩ := List.forall_mem_cons.mp hps
    obtain ⟨q, hq, hprint⟩ := ih hps (p.after r.text)
    refine ⟨q, hq.trans ?_, ?_⟩
    · rw [Printer.after_piece hr]
      rfl
    · rw [text_cons, List.append_assoc, Printer.print_piece hr, hprint, Printer.pieces, text_append,
        List.append_assoc]

/-- A string of the text and what is printed for it. -/
theorem Printer.print_string (hps : ∀ q ∈ ps, q.Ok) (p : Printer) (s : List Char) :
    ∃ inner q : Printer, inner.inString = !p.inString ∧ q.inString = !(flagAfter (!p.inString) ps) ∧
      p.print (quoted (text ps) ++ s) = quoted (text (inner.pieces ps)) ++ q.print s := by
  have hquote : ∀ (r : Printer) (more : List Char),
      r.print ('"' :: more) = '"' :: (Printer.mk (!r.inString) r.indent).print more := fun _ _ => rfl
  obtain ⟨q, hq, hprint⟩ := Printer.print_pieces hps ⟨!p.inString, p.indent⟩ ('"' :: s)
  refine ⟨⟨!p.inString, p.indent⟩, ⟨!q.inString, q.indent⟩, rfl, by rw [← hq], ?_⟩
  rw [quoted, List.cons_append, List.append_assoc, hquote, List.singleton_append, hprint, hquote, quoted]
  simp only [List.cons_append, List.append_assoc, List.nil_append]

/-! ## When a string comes through -/

/-- The units that are written ahead. -/
def debt : Bool → List ℕ
  | true => [0x20]
  | false => []

theorem escape_units_ne (e : Escape) (us vs : List ℕ) : (Piece.escape e).units ++ us ≠ 0x20 :: vs := by
  intro h
  cases e <;> exact absurd (List.cons.inj h).1 (by decide)

theorem plain_units_ne (hc : c ≠ ' ') (us vs : List ℕ) : (Piece.plain c).units ++ us ≠ 0x20 :: vs := by
  intro h
  exact hc (utf16_append_inj (d := ' ') h).1

theorem unicode_units_ne {h1 h2 h3 h4 : Char} (h : (Piece.unicode h1 h2 h3 h4).units ≠ [0x20]) (us vs : List ℕ) :
    (Piece.unicode h1 h2 h3 h4).units ++ us ≠ 0x20 :: vs := by
  intro heq
  exact h (congrArg (fun n => [n]) (List.cons.inj heq).1)

/-- A piece that is copied and is no space settles nothing. -/
theorem copied_iff {q : Piece} (owed : Bool) (hq : q.Ok) (hne : owed = true → ∀ us vs, q.units ++ us ≠ 0x20 :: vs)
    (ps qs : List Piece) :
    (debt owed ++ units (q :: qs) = units (q :: ps) ∧ ∀ r ∈ q :: qs, r.Ok) ↔
      owed = false ∧ debt false ++ units qs = units ps ∧ ∀ r ∈ qs, r.Ok := by
  rw [List.forall_mem_cons, units_cons, units_cons]
  cases owed with
  | true =>
    constructor
    · exact fun h => absurd h.1.symm (hne rfl _ _)
    · exact fun h => absurd h.1 (by decide)
  | false =>
    constructor
    · exact fun h => ⟨rfl, List.append_cancel_left h.1, h.2.2⟩
    · exact fun h => ⟨congrArg (q.units ++ ·) h.2.1, hq, h.2.2⟩

theorem not_ok_newline : ¬ (Piece.plain '\n').Ok := fun h => absurd h.1 (by decide)

/-- With the flag off a bracket or a comma brings a line break with it. -/
theorem Printer.newline_of_mark (hp : p.inString = false)
    (hc : c ∈ ['{', '[', '}', ']', ',']) : '\n' ∈ (p.step c).1 := by
  simp only [List.mem_cons, List.not_mem_nil, or_false] at hc
  rcases hc with rfl | rfl | rfl | rfl | rfl <;> simp [Printer.step, hp]

theorem Printer.first_of_mark (hp : p.inString = false)
    (hc : c ∈ ['{', '[', '}', ']', ',']) (us vs : List ℕ) : units ((p.step c).1.map .plain) ++ us ≠ 0x20 :: vs := by
  intro h
  simp only [List.mem_cons, List.not_mem_nil, or_false] at hc
  rcases hc with rfl | rfl | rfl | rfl | rfl
  all_goals
    simp [Printer.step, hp, units, Piece.units, utf16] at h

theorem ordinary_of_not (hquote : c ≠ '"') (hmark : c ∉ ['{', '[', '}', ']', ',']) (hcolon : c ≠ ':')
    (hspace : c ≠ ' ') : Ordinary c := by
  simp only [List.mem_cons, List.not_mem_nil, or_false, not_or] at hmark
  simp only [Ordinary, List.mem_cons, List.not_mem_nil, or_false, not_or]
  exact ⟨hquote, hmark.1, hmark.2.1, hmark.2.2.1, hmark.2.2.2.1, hmark.2.2.2.2, hcolon, hspace⟩

theorem units_single (q : Piece) : units [q] = q.units := List.append_nil _

/-- Spaces that were dropped are never made up for. -/
theorem Printer.no_deficit (hps : ∀ q ∈ ps, q.Ok) (hp : p.inString = false) (k : ℕ) :
    units (p.pieces ps) ≠ List.replicate (k + 1) 0x20 ++ units ps := by
  induction ps generalizing p k with
  | nil => exact nofun
  | cons q ps ih =>
    obtain ⟨hq, hrest⟩ := List.forall_mem_cons.mp hps
    intro h
    have hafter := Printer.after_piece hq p
    rw [hp, Bool.false_xor] at hafter
    rw [Printer.pieces, units_append] at h
    cases q with
    | escape e =>
      rw [Printer.piece, units_single, List.replicate_succ, List.cons_append] at h
      exact escape_units_ne e _ _ h
    | plain c =>
      have hstep : (p.after (Piece.plain c).text) = (p.step c).2 := rfl
      rw [Printer.piece] at h
      by_cases hspace : c = ' '
      · subst hspace
        have hnone : (p.step ' ').1 = [] := by simp [Printer.step, hp]
        rw [hnone, units_cons, List.replicate_succ'] at h
        refine ih hrest hafter (k + 1) ?_
        rw [List.replicate_succ', List.replicate_succ', List.append_assoc _ [32] (units ps)]
        exact h
      · rw [List.replicate_succ, List.cons_append] at h
        by_cases hcolon : c = ':'
        · subst hcolon
          have htwo : (p.step ':').1 = [':', ' '] := by simp [Printer.step, hp]
          rw [htwo] at h
          exact absurd (List.cons.inj h).1 (by decide)
        · by_cases hmark : c ∈ ['{', '[', '}', ']', ',']
          · exact Printer.first_of_mark hp hmark _ _ h
          · rw [p.step_ordinary (ordinary_of_not hq.2.1 hmark hcolon hspace), List.map_singleton, units_single] at h
            exact plain_units_ne hspace _ _ h
    | unicode h1 h2 h3 h4 =>
      rw [Printer.piece, units_single, List.replicate_succ, List.cons_append] at h
      by_cases hspace : (Piece.unicode h1 h2 h3 h4).units = [0x20]
      · rw [units_cons, hspace] at h
        refine ih hrest hafter k ?_
        rw [List.replicate_succ', List.append_assoc]
        exact (List.cons.inj h).2
      · exact unicode_units_ne hspace _ _ h

/-- A string comes through if and only if the condition on its pieces holds. -/
theorem Printer.keeps_iff (hps : ∀ q ∈ ps, q.Ok) (owed : Bool) (howed : owed = true → p.inString = false) :
    (debt owed ++ units (p.pieces ps) = units ps ∧ ∀ q ∈ p.pieces ps, q.Ok) ↔ Kept p.inString owed ps := by
  induction ps generalizing p owed with
  | nil => cases owed <;> simp [Kept, debt, units, Printer.pieces]
  | cons q ps ih =>
    obtain ⟨hq, hrest⟩ := List.forall_mem_cons.mp hps
    have hafter := Printer.after_piece hq p
    have hnext : ∀ b : Bool, (b = true → (p.inString ^^ q.toggles) = false) →
        ((debt b ++ units ((p.after q.text).pieces ps) = units ps ∧ ∀ r ∈ (p.after q.text).pieces ps, r.Ok) ↔
          Kept (p.inString ^^ q.toggles) b ps) := by
      intro b hb
      rw [← hafter] at hb ⊢
      exact ih hrest b hb
    have hsettled := hnext false fun h => absurd h Bool.false_ne_true
    cases q with
    | escape e =>
      have hcopied := copied_iff owed hq (fun _ => escape_units_ne e) ps
        ((p.after (Piece.escape e).text).pieces ps)
      rw [Kept]
      exact hcopied.trans (and_congr_right' hsettled)
    | plain c =>
      cases hp : p.inString with
      | true =>
        have hstep : p.piece (.plain c) = [.plain c] := by
          rw [Printer.piece, Printer.step_inside hp hq.2.1, List.map_singleton]
        have hcopied := copied_iff owed hq (fun h => absurd (howed h) (by simp [hp])) ps
          ((p.after (Piece.plain c).text).pieces ps)
        rw [hp] at hsettled
        rw [Printer.pieces, hstep, Kept]
        exact hcopied.trans (and_congr_right' hsettled)
      | false =>
        rw [hp] at hsettled
        rw [Kept]
        split_ifs with hspace hcolon
        · subst hspace
          have hstep : p.piece (.plain ' ') = [] := by simp [Printer.piece, Printer.step, hp]
          rw [Printer.pieces, hstep, List.nil_append]
          cases owed with
          | true =>
            refine Iff.trans ?_ (hsettled.trans ⟨fun h => ⟨rfl, h⟩, fun h => h.2⟩)
            exact and_congr_left' ⟨fun h => (List.cons.inj h).2, fun h => congrArg (0x20 :: ·) h⟩
          | false =>
            have hflag : (p.after (Piece.plain ' ').text).inString = false :=
              hafter.trans ((Bool.xor_false _).trans hp)
            constructor
            · exact fun h => absurd h.1 (Printer.no_deficit hrest hflag 0)
            · exact fun h => absurd h.1 (by decide)
        · subst hcolon
          have hstep : p.piece (.plain ':') = [.plain ':', .plain ' '] := by simp [Printer.piece, Printer.step, hp]
          have howing := hnext true (fun _ => (Bool.xor_false _).trans hp)
          rw [hp] at howing
          rw [Printer.pieces, hstep]
          cases owed with
          | true =>
            constructor
            · exact fun h => absurd (List.cons.inj h.1).1 (by decide)
            · exact fun h => absurd h.1 (by decide)
          | false =>
            refine Iff.trans ?_ (howing.trans ⟨fun h => ⟨rfl, h⟩, fun h => h.2⟩)
            apply and_congr
            · exact ⟨fun h => (List.cons.inj h).2, fun h => congrArg (58 :: ·) h⟩
            · rw [List.cons_append, List.cons_append, List.nil_append, List.forall_mem_cons, List.forall_mem_cons]
              exact ⟨fun h => h.2.2, fun h => ⟨(by decide : Unescaped ':'), (by decide : Unescaped ' '), h⟩⟩
        · by_cases hmark : c ∈ ['{', '[', '}', ']', ',']
          · have hline : Piece.plain '\n' ∈ p.pieces (.plain c :: ps) :=
              List.mem_append_left _ (List.mem_map_of_mem (Printer.newline_of_mark hp hmark))
            constructor
            · exact fun h => absurd (h.2 _ hline) not_ok_newline
            · exact fun h => absurd hmark h.2.1
          · have hstep : p.piece (.plain c) = [.plain c] := by
              rw [Printer.piece, p.step_ordinary (ordinary_of_not hq.2.1 hmark hcolon hspace), List.map_singleton]
            have hcopied := copied_iff owed hq (fun _ => plain_units_ne hspace) ps
              ((p.after (Piece.plain c).text).pieces ps)
            rw [Printer.pieces, hstep]
            refine hcopied.trans (and_congr_right' (hsettled.trans ?_))
            exact ⟨fun h => ⟨hmark, h⟩, fun h => h.2⟩
    | unicode h1 h2 h3 h4 =>
      rw [Printer.pieces, Printer.piece]
      cases hp : p.inString with
      | true =>
        have hcopied := copied_iff owed hq (fun h => absurd (howed h) (by simp [hp])) ps
          ((p.after (Piece.unicode h1 h2 h3 h4).text).pieces ps)
        rw [hp] at hsettled
        rw [Kept]
        exact hcopied.trans (and_congr_right' hsettled)
      | false =>
        rw [Kept]
        split_ifs with hspace
        · have hsame := hnext owed (fun _ => (Bool.xor_false _).trans hp)
          rw [hp] at hsame
          refine Iff.trans ?_ hsame
          rw [List.singleton_append, List.forall_mem_cons, units_cons, units_cons, hspace]
          apply and_congr
          · cases owed <;> exact ⟨fun h => (List.cons.inj h).2, fun h => congrArg (0x20 :: ·) h⟩
          · exact ⟨fun h => h.2, fun h => ⟨hq, h⟩⟩
        · have hcopied := copied_iff owed hq (fun _ => unicode_units_ne hspace) ps
            ((p.after (Piece.unicode h1 h2 h3 h4).text).pieces ps)
          rw [hp] at hsettled
          exact hcopied.trans (and_congr_right' hsettled)

/-! ## Printing twice -/

theorem flagAfter_append (inString : Bool) (ps qs : List Piece) :
    flagAfter inString (ps ++ qs) = flagAfter (flagAfter inString ps) qs := List.foldl_append

theorem flagAfter_plain (inString : Bool) (cs : List Char) : flagAfter inString (cs.map .plain) = inString := by
  induction cs with
  | nil => rfl
  | cons c cs ih => exact (congrArg (flagAfter · (cs.map .plain)) (Bool.xor_false inString)).trans ih

theorem Printer.flagAfter_pieces (hps : ∀ q ∈ ps, q.Ok) (p : Printer) :
    flagAfter p.inString (p.pieces ps) = flagAfter p.inString ps := by
  induction ps generalizing p with
  | nil => rfl
  | cons q ps ih =>
    obtain ⟨hq, hps⟩ := List.forall_mem_cons.mp hps
    have hpiece : flagAfter p.inString (p.piece q) = (p.after q.text).inString := by
      rw [Printer.after_piece hq]
      cases q with
      | plain c => exact (flagAfter_plain _ _).trans (Bool.xor_false _).symm
      | escape e => rfl
      | unicode => rfl
    rw [Printer.pieces, flagAfter_append, hpiece, ih hps, Printer.after_piece hq]
    rfl

/-- A string that comes through comes through again. -/
theorem Printer.kept_pieces (hps : ∀ q ∈ ps, q.Ok) {owed : Bool}
    (h : Kept p.inString owed ps) : Kept p.inString false (p.pieces ps) := by
  induction ps generalizing p owed with
  | nil => exact rfl
  | cons q ps ih =>
    obtain ⟨hq, hrest⟩ := List.forall_mem_cons.mp hps
    have hafter := Printer.after_piece hq p
    have hnext : ∀ {b}, Kept (p.inString ^^ q.toggles) b ps →
        Kept (p.inString ^^ q.toggles) false ((p.after q.text).pieces ps) := by
      intro b hb
      rw [← hafter] at hb ⊢
      exact ih hrest hb
    rw [Printer.pieces]
    cases q with
    | escape e =>
      rw [Kept] at h
      rw [Printer.piece, List.singleton_append, Kept]
      exact ⟨rfl, hnext h.2⟩
    | plain c =>
      cases hp : p.inString with
      | true =>
        rw [hp] at h hnext
        rw [Kept] at h
        rw [Printer.piece, Printer.step_inside hp hq.2.1, List.map_singleton, List.singleton_append, Kept]
        exact ⟨rfl, hnext h.2⟩
      | false =>
        rw [hp] at h hnext
        rw [Kept] at h
        split_ifs at h with hspace hcolon
        · subst hspace
          have hstep : p.piece (.plain ' ') = [] := by simp [Printer.piece, Printer.step, hp]
          rw [hstep]
          exact hnext h.2
        · subst hcolon
          have hstep : p.piece (.plain ':') = [.plain ':', .plain ' '] := by simp [Printer.piece, Printer.step, hp]
          rw [hstep]
          exact ⟨rfl, rfl, hnext h.2⟩
        · rw [Printer.piece, p.step_ordinary (ordinary_of_not hq.2.1 h.2.1 hcolon hspace), List.map_singleton,
            List.singleton_append, Kept, if_neg hspace, if_neg hcolon]
          exact ⟨rfl, h.2.1, hnext h.2.2⟩
    | unicode h1 h2 h3 h4 =>
      rw [Printer.piece, List.singleton_append]
      cases hp : p.inString with
      | true =>
        rw [hp] at h hnext
        rw [Kept] at h
        rw [Kept]
        exact ⟨rfl, hnext h.2⟩
      | false =>
        rw [hp] at h hnext
        rw [Kept] at h
        rw [Kept]
        split_ifs at h with hspace
        · rw [if_pos hspace]
          exact hnext h
        · rw [if_neg hspace]
          exact ⟨rfl, hnext h.2⟩

/-! ## Texts whose strings come through -/

def Goal.strings : Goal → List (List Piece)
  | .value t => t.strings
  | .elements ts => ts.strings
  | .members ms => ms.strings

/-- `s` reads as the same value written with strings that come through, up to `rest`. -/
def Goal.Reads (inString : Bool) (s rest : List Char) : Goal → Prop
  | .value t => ∃ t' : Node (List Piece), t'.map units = t.map units ∧ Met inString t'.strings ∧
      leave inString t'.strings = leave inString t.strings ∧ Derives (.value t') s rest
  | .elements ts => ∃ ts' : Nodes (List Piece), ts'.map units = ts.map units ∧ Met inString ts'.strings ∧
      leave inString ts'.strings = leave inString ts.strings ∧ Derives (.elements ts') s rest
  | .members ms => ∃ ms' : Members (List Piece), ms'.map units = ms.map units ∧ Met inString ms'.strings ∧
      leave inString ms'.strings = leave inString ms.strings ∧ Derives (.members ms') s rest

theorem derives_blank_elements {ts : Nodes (List Piece)} {v s rest : List Char} (hv : Blank v)
    (h : Derives (.elements ts) s rest) : Derives (.elements ts) (v ++ s) rest := by
  cases h with
  | lastElement _ hws ht hws' =>
    rw [← List.append_assoc]
    exact .lastElement _ (blank_append hv hws) ht hws'
  | element hws ht hws' hts =>
    rw [← List.append_assoc]
    exact .element (blank_append hv hws) ht hws' hts

theorem derives_blank_members {ms : Members (List Piece)} {v s rest : List Char} (hv : Blank v)
    (h : Derives (.members ms) s rest) : Derives (.members ms) (v ++ s) rest := by
  cases h with
  | lastMember _ hws hk hws1 hws2 ht hws' =>
    rw [← List.append_assoc]
    exact .lastMember _ (blank_append hv hws) hk hws1 hws2 ht hws'
  | member hws hk hws1 hws2 ht hws' hms =>
    rw [← List.append_assoc]
    exact .member (blank_append hv hws) hk hws1 hws2 ht hws' hms

/-- Whitespace and a closing bracket. -/
theorem Printer.print_blank_close (hws : Blank ws) (p : Printer) (hc : c ∈ ['}', ']'])
    (s : List Char) : ∃ (v : List Char) (q : Printer), Blank v ∧ q.inString = p.inString ∧
      p.print (ws ++ c :: s) = v ++ c :: q.print s := by
  obtain ⟨v, hv, hblank⟩ := p.print_blank hws (c :: s)
  obtain ⟨v', q, hv', hq, hclose⟩ := p.print_close hc
  exact ⟨v ++ v', q, blank_append hv hv', hq, by rw [hblank, hclose, List.append_assoc]⟩

/-- Whitespace and a comma or a colon. -/
theorem Printer.print_blank_open {ws : List Char} (hws : Blank ws) (p : Printer) {c : Char}
    (hc : c ∈ ['{', '[', ',', ':']) (s : List Char) :
    ∃ (v v' : List Char) (q : Printer), Blank v ∧ Blank v' ∧ q.inString = p.inString ∧
      p.print (ws ++ c :: s) = v ++ c :: (v' ++ q.print s) := by
  obtain ⟨v, hv, hblank⟩ := p.print_blank hws (c :: s)
  obtain ⟨v', q, hv', hq, hopen⟩ := p.print_open hc
  exact ⟨v, v', q, hv, hv', hq, by rw [hblank, hopen]⟩

/-- A string that comes through, between its quotes. -/
theorem Printer.print_kept (hps : ∀ q ∈ ps, q.Ok) (p : Printer)
    (hkept : Kept (!p.inString) false ps) (s : List Char) :
    ∃ (qs : List Piece) (q : Printer), (∀ r ∈ qs, r.Ok) ∧ units qs = units ps ∧
      Kept (!p.inString) false qs ∧ flagAfter (!p.inString) qs = flagAfter (!p.inString) ps ∧
      q.inString = !(flagAfter (!p.inString) ps) ∧
      p.print (quoted (text ps) ++ s) = quoted (text qs) ++ q.print s := by
  obtain ⟨inner, q, hinner, hq, hprint⟩ := Printer.print_string hps p s
  rw [← hinner] at hkept ⊢
  obtain ⟨hunits, hok⟩ := (Printer.keeps_iff hps false nofun).mpr hkept
  exact ⟨inner.pieces ps, q, hok, hunits, Printer.kept_pieces hps hkept, inner.flagAfter_pieces hps,
    hinner ▸ hq, hprint⟩

/-- A key and its colon. -/
theorem Printer.print_key {ws ws1 ws2 : List Char} {k : List Piece} (hws : Blank ws) (hk : ∀ q ∈ k, q.Ok)
    (hws1 : Blank ws1) (hws2 : Blank ws2) (p : Printer) (hkept : Kept (!p.inString) false k) (s : List Char) :
    ∃ (v v1 v2 : List Char) (k' : List Piece) (q : Printer), Blank v ∧ Blank v1 ∧ Blank v2 ∧ (∀ r ∈ k', r.Ok) ∧
      units k' = units k ∧ Kept (!p.inString) false k' ∧
      flagAfter (!p.inString) k' = flagAfter (!p.inString) k ∧ q.inString = !(flagAfter (!p.inString) k) ∧
      p.print (ws ++ (quoted (text k) ++ (ws1 ++ ':' :: (ws2 ++ s)))) =
        v ++ (quoted (text k') ++ (v1 ++ ':' :: (v2 ++ q.print s))) := by
  obtain ⟨v, hv, hblank⟩ := p.print_blank hws (quoted (text k) ++ (ws1 ++ ':' :: (ws2 ++ s)))
  obtain ⟨k', q, hok, hunits, hkept', hflag, hq, hstring⟩ := p.print_kept hk hkept (ws1 ++ ':' :: (ws2 ++ s))
  obtain ⟨v1, v2, q', hv1, hv2, hq', hcolon⟩ := q.print_blank_open hws1 (c := ':') (by decide) (ws2 ++ s)
  obtain ⟨v3, hv3, hblank'⟩ := q'.print_blank hws2 s
  refine ⟨v, v1, v2 ++ v3, k', q', hv, hv1, blank_append hv2 hv3, hok, hunits, hkept', hflag, hq'.trans hq, ?_⟩
  rw [hblank, hstring, hcolon, hblank', List.append_assoc v2]

theorem derives_print {g : Goal} {s rest : List Char} (h : Derives g s rest) (p : Printer)
    (hmet : Met p.inString g.strings) : ∃ q : Printer, q.inString = leave p.inString g.strings ∧
      g.Reads p.inString (p.print s) (q.print rest) := by
  induction h generalizing p with
  | null rest =>
    refine ⟨p, rfl, .null, rfl, trivial, rfl, ?_⟩
    rw [p.print_ordinary (forall_of_all (by decide))]
    exact .null _
  | true rest =>
    refine ⟨p, rfl, .bool true, rfl, trivial, rfl, ?_⟩
    rw [p.print_ordinary (forall_of_all (by decide))]
    exact .true _
  | false rest =>
    refine ⟨p, rfl, .bool false, rfl, trivial, rfl, ?_⟩
    rw [p.print_ordinary (forall_of_all (by decide))]
    exact .false _
  | @num digits rest hnumber =>
    refine ⟨p, rfl, .num digits, rfl, trivial, rfl, ?_⟩
    rw [p.print_ordinary (ordinary_of_isNumber hnumber)]
    exact .num _ hnumber
  | @str ps rest hps =>
    obtain ⟨qs, q, hok, hunits, hkept, hflag, hq, hprint⟩ := p.print_kept hps hmet.1 rest
    refine ⟨q, hq, .str qs, congrArg Node.str hunits, ⟨hkept, trivial⟩, congrArg (!·) hflag, ?_⟩
    rw [hprint]
    exact .str _ hok
  | @emptyArr ws rest hws =>
    obtain ⟨v, q, hv, hq, hopen⟩ := p.print_open (c := '[') (by decide)
    obtain ⟨v', q', hv', hq', hclose⟩ := q.print_blank_close hws (c := ']') (by decide) rest
    refine ⟨q', hq'.trans hq, .arr .nil, rfl, trivial, rfl, ?_⟩
    rw [hopen, hclose, ← List.append_assoc]
    exact .emptyArr _ (blank_append hv hv')
  | @arr ts s rest hts ih =>
    obtain ⟨v, q, hv, hq, hopen⟩ := p.print_open (c := '[') (by decide)
    obtain ⟨q', hq', ts', hvalue, hmet', hleave, hderives⟩ := ih q (hq ▸ hmet)
    rw [hq] at hq' hmet' hleave
    refine ⟨q', hq', .arr ts', congrArg Node.arr hvalue, hmet', hleave, ?_⟩
    rw [hopen]
    exact .arr (derives_blank_elements hv hderives)
  | @emptyObj ws rest hws =>
    obtain ⟨v, q, hv, hq, hopen⟩ := p.print_open (c := '{') (by decide)
    obtain ⟨v', q', hv', hq', hclose⟩ := q.print_blank_close hws (c := '}') (by decide) rest
    refine ⟨q', hq'.trans hq, .obj .nil, rfl, trivial, rfl, ?_⟩
    rw [hopen, hclose, ← List.append_assoc]
    exact .emptyObj _ (blank_append hv hv')
  | @obj ms s rest hms ih =>
    obtain ⟨v, q, hv, hq, hopen⟩ := p.print_open (c := '{') (by decide)
    obtain ⟨q', hq', ms', hvalue, hmet', hleave, hderives⟩ := ih q (hq ▸ hmet)
    rw [hq] at hq' hmet' hleave
    refine ⟨q', hq', .obj ms', congrArg Node.obj hvalue, hmet', hleave, ?_⟩
    rw [hopen]
    exact .obj (derives_blank_members hv hderives)
  | @lastElement t ws ws' s rest hws ht hws' ih =>
    have hstrings : (Nodes.cons t .nil).strings = t.strings := List.append_nil _
    rw [Goal.strings, hstrings] at hmet ⊢
    obtain ⟨v, hv, hblank⟩ := p.print_blank hws s
    obtain ⟨q, hq, t', hvalue, hmet', hleave, hderives⟩ := ih p hmet
    obtain ⟨v', q', hv', hq', hclose⟩ := q.print_blank_close hws' (c := ']') (by decide) rest
    refine ⟨q', hq'.trans hq, .cons t' .nil, ?_, ?_, ?_, ?_⟩
    · rw [Nodes.map, hvalue]
      rfl
    · rwa [Nodes.strings, Nodes.strings, List.append_nil]
    · rw [Nodes.strings, Nodes.strings, List.append_nil, hleave, hstrings]
    · rw [hblank]
      rw [hclose] at hderives
      exact .lastElement _ hv hderives hv'
  | @element t ts ws ws' s s' rest hws ht hws' hts ih ihs =>
    rw [Goal.strings, Nodes.strings, met_append] at hmet
    obtain ⟨v, hv, hblank⟩ := p.print_blank hws s
    obtain ⟨q, hq, t', hvalue, hmet', hleave, hderives⟩ := ih p hmet.1
    obtain ⟨v', v'', q', hv', hv'', hq', hcomma⟩ := q.print_blank_open hws' (c := ',') (by decide) s'
    rw [hcomma] at hderives
    have hflag : q'.inString = leave p.inString t.strings := hq'.trans hq
    obtain ⟨q'', hq'', ts', hvalues, hmets, hleaves, hrest⟩ := ihs q' (hflag ▸ hmet.2)
    rw [hflag] at hq'' hmets hleaves
    refine ⟨q'', ?_, .cons t' ts', ?_, ?_, ?_, ?_⟩
    · rw [hq'', Goal.strings, Goal.strings, Nodes.strings, leave_append]
    · rw [Nodes.map, hvalue, hvalues]
      rfl
    · rw [Nodes.strings, met_append, hleave]
      exact ⟨hmet', hmets⟩
    · rw [Nodes.strings, Nodes.strings, leave_append, leave_append, hleave, hleaves]
    · rw [hblank]
      exact .element hv hderives hv' (derives_blank_elements hv'' hrest)
  | @lastMember k t ws ws1 ws2 ws' s rest hws hk hws1 hws2 ht hws' ih =>
    have hstrings : (Members.cons k t .nil).strings = k :: t.strings := congrArg (k :: ·) (List.append_nil _)
    rw [Goal.strings, hstrings] at hmet ⊢
    obtain ⟨v, v1, v2, k', q, hv, hv1, hv2, hok, hunits, hkept, hflag, hq, hkey⟩ :=
      p.print_key hws hk hws1 hws2 hmet.1 s
    obtain ⟨q', hq', t', hvalue, hmet', hleave, hderives⟩ := ih q (hq ▸ hmet.2)
    obtain ⟨v', q'', hv', hq'', hclose⟩ := q'.print_blank_close hws' (c := '}') (by decide) rest
    rw [hq] at hq' hmet' hleave
    have hstrings' : (Members.cons k' t' .nil).strings = k' :: t'.strings := congrArg (k' :: ·) (List.append_nil _)
    refine ⟨q'', hq''.trans hq', .cons k' t' .nil, ?_, ?_, ?_, ?_⟩
    · rw [Members.map, hunits, hvalue]
      rfl
    · rw [hstrings', Met, hflag]
      exact ⟨hkept, hmet'⟩
    · rw [hstrings, hstrings', leave_cons, hflag, hleave]
      rfl
    · rw [hkey]
      rw [hclose] at hderives
      exact .lastMember _ hv hok hv1 hv2 hderives hv'
  | @member k t ms ws ws1 ws2 ws' s s' rest hws hk hws1 hws2 ht hws' hms ih ihs =>
    rw [Goal.strings, Members.strings, Met, met_append] at hmet
    obtain ⟨v, v1, v2, k', q, hv, hv1, hv2, hok, hunits, hkept, hflag, hq, hkey⟩ :=
      p.print_key hws hk hws1 hws2 hmet.1 s
    obtain ⟨q', hq', t', hvalue, hmet', hleave, hderives⟩ := ih q (hq ▸ hmet.2.1)
    obtain ⟨v', v'', q'', hv', hv'', hq'', hcomma⟩ := q'.print_blank_open hws' (c := ',') (by decide) s'
    rw [hcomma] at hderives
    rw [hq] at hq' hmet' hleave
    have hnext : q''.inString = leave (!(flagAfter (!p.inString) k)) t.strings := hq''.trans hq'
    obtain ⟨q3, hq3, ms', hvalues, hmets, hleaves, hrest⟩ := ihs q'' (hnext ▸ hmet.2.2)
    rw [hnext] at hq3 hmets hleaves
    refine ⟨q3, ?_, .cons k' t' ms', ?_, ?_, ?_, ?_⟩
    · rw [hq3, Goal.strings, Goal.strings, Members.strings, leave_cons, leave_append]
    · rw [Members.map, hunits, hvalue, hvalues]
      rfl
    · rw [Members.strings, Met, met_append, hflag, hleave]
      exact ⟨hkept, hmet', hmets⟩
    · rw [Members.strings, Members.strings, leave_cons, leave_cons, hflag, leave_append, leave_append, hleave,
        hleaves]
    · rw [hkey]
      exact .member hv hok hv1 hv2 hderives hv' (derives_blank_members hv'' hrest)

theorem text_print {s : List Char} {t : Node (List Piece)} (h : Text s t) (p : Printer)
    (hmet : Met p.inString t.strings) :
    ∃ t' : Node (List Piece), t'.value = t.value ∧ Met p.inString t'.strings ∧ Text (p.print s) t' := by
  obtain ⟨ws, s', ws', rfl, hws, ht, hws'⟩ := h
  obtain ⟨v, hv, hblank⟩ := p.print_blank hws s'
  obtain ⟨q, -, t', hvalue, hmet', -, hderives⟩ := derives_print ht p hmet
  obtain ⟨v', hv', hblank'⟩ := q.print_blank hws' []
  rw [List.append_nil] at hblank'
  refine ⟨t', hvalue, hmet', v, p.print s', q.print ws', hblank, hv, hderives, ?_⟩
  rw [hblank', Printer.print, List.append_nil]
  exact hv'

/-! ## The strings of a printed text -/

/-- Where a reader of strings is. -/
inductive Lexer where
  | outside
  | inside (acc : List Char)
  | escaped (acc : List Char)

/-- The texts between the quotes of a text. -/
def Lexer.strings : Lexer → List Char → List (List Char)
  | _, [] => []
  | .outside, c :: s => if c = '"' then Lexer.strings (.inside []) s else Lexer.strings .outside s
  | .inside acc, c :: s =>
    if c = '"' then acc :: Lexer.strings .outside s
    else if c = '\\' then Lexer.strings (.escaped (acc ++ [c])) s
    else Lexer.strings (.inside (acc ++ [c])) s
  | .escaped acc, c :: s => Lexer.strings (.inside (acc ++ [c])) s

/-- A piece that does not end its string. -/
def Piece.Loose : Piece → Prop
  | .plain c => c ≠ '"' ∧ c ≠ '\\'
  | .escape _ => True
  | .unicode h1 h2 h3 h4 => IsHex h1 ∧ IsHex h2 ∧ IsHex h3 ∧ IsHex h4

theorem Piece.Ok.loose {q : Piece} (h : q.Ok) : q.Loose := by
  cases q with
  | plain c => exact h.2
  | escape e => trivial
  | unicode => exact h

theorem Lexer.inside_plain (hw : ∀ c ∈ w, c ≠ '"' ∧ c ≠ '\\') (acc s : List Char) :
    Lexer.strings (.inside acc) (w ++ s) = Lexer.strings (.inside (acc ++ w)) s := by
  induction w generalizing acc with
  | nil => rw [List.append_nil, List.nil_append]
  | cons c w ih =>
    obtain ⟨⟨hquote, hbackslash⟩, hw⟩ := List.forall_mem_cons.mp hw
    rw [List.cons_append, Lexer.strings, if_neg hquote, if_neg hbackslash, ih hw, List.append_assoc,
      List.singleton_append]

theorem Lexer.inside_piece {q : Piece} (hq : q.Loose) (acc s : List Char) :
    Lexer.strings (.inside acc) (q.text ++ s) = Lexer.strings (.inside (acc ++ q.text)) s := by
  cases q with
  | plain c => exact Lexer.inside_plain (List.forall_mem_singleton.mpr hq) acc s
  | escape e =>
    change Lexer.strings (.inside (acc ++ ['\\'] ++ [e.letter])) s = _
    rw [List.append_assoc]
    rfl
  | unicode h1 h2 h3 h4 =>
    obtain ⟨hh1, hh2, hh3, hh4⟩ := hq
    have hhex : ∀ c ∈ [h1, h2, h3, h4], c ≠ '"' ∧ c ≠ '\\' := by
      simp only [List.forall_mem_cons]
      exact ⟨isHex_ne hh1, isHex_ne hh2, isHex_ne hh3, isHex_ne hh4, nofun⟩
    change Lexer.strings (.inside (acc ++ ['\\'] ++ ['u'])) ([h1, h2, h3, h4] ++ s) = _
    rw [Lexer.inside_plain hhex, List.append_assoc, List.append_assoc]
    rfl

theorem Lexer.inside_pieces (hps : ∀ q ∈ ps, q.Loose) (acc s : List Char) :
    Lexer.strings (.inside acc) (text ps ++ '"' :: s) = (acc ++ text ps) :: Lexer.strings .outside s := by
  induction ps generalizing acc with
  | nil => exact congrArg (· :: Lexer.strings .outside s) (List.append_nil acc).symm
  | cons q ps ih =>
    obtain ⟨hq, hps⟩ := List.forall_mem_cons.mp hps
    rw [text_cons, List.append_assoc, Lexer.inside_piece hq, ih hps, List.append_assoc]

theorem Lexer.outside_quoted (hps : ∀ q ∈ ps, q.Loose) (s : List Char) :
    Lexer.strings .outside (quoted (text ps) ++ s) = text ps :: Lexer.strings .outside s := by
  have hinside := Lexer.inside_pieces hps [] s
  rw [quoted, List.cons_append, List.append_assoc]
  exact hinside

theorem Lexer.outside_append (hw : '"' ∉ w) (s : List Char) :
    Lexer.strings .outside (w ++ s) = Lexer.strings .outside s := by
  induction w with
  | nil => rfl
  | cons c w ih =>
    rw [List.mem_cons, not_or] at hw
    rw [List.cons_append, Lexer.strings, if_neg (Ne.symm hw.1), ih hw.2]

theorem quote_not_mem_blank (h : Blank ws) : '"' ∉ ws := fun hmem =>
  absurd (h _ hmem) (by simp [IsWs])

theorem Lexer.outside_cons (hc : c ≠ '"') (s : List Char) :
    Lexer.strings .outside (c :: s) = Lexer.strings .outside s := if_neg hc

theorem Lexer.outside_blank_cons (hws : Blank ws) (hc : c ≠ '"') (s : List Char) :
    Lexer.strings .outside (ws ++ c :: s) = Lexer.strings .outside s := by
  rw [Lexer.outside_append (quote_not_mem_blank hws), Lexer.outside_cons hc]

theorem Lexer.outside_key {ws ws1 ws2 : List Char} {k : List Piece} (hws : Blank ws) (hk : ∀ q ∈ k, q.Ok)
    (hws1 : Blank ws1) (hws2 : Blank ws2) (s : List Char) :
    Lexer.strings .outside (ws ++ (quoted (text k) ++ (ws1 ++ ':' :: (ws2 ++ s)))) =
      text k :: Lexer.strings .outside s := by
  rw [Lexer.outside_append (quote_not_mem_blank hws), Lexer.outside_quoted fun q hq => (hk q hq).loose,
    Lexer.outside_blank_cons hws1 (by decide), Lexer.outside_append (quote_not_mem_blank hws2)]

theorem derives_strings {g : Goal} {s rest : List Char} (h : Derives g s rest) :
    Lexer.strings .outside s = g.strings.map text ++ Lexer.strings .outside rest := by
  induction h with
  | null rest => exact Lexer.outside_append (by decide) rest
  | true rest => exact Lexer.outside_append (by decide) rest
  | false rest => exact Lexer.outside_append (by decide) rest
  | num rest hnumber => exact Lexer.outside_append (quote_not_mem_number hnumber) rest
  | str rest hps => exact Lexer.outside_quoted (fun q hq => (hps q hq).loose) rest
  | emptyArr rest hws =>
    rw [Lexer.outside_cons (by decide), Lexer.outside_blank_cons hws (by decide)]
    rfl
  | arr _ ih =>
    rw [Lexer.outside_cons (by decide), ih]
    rfl
  | emptyObj rest hws =>
    rw [Lexer.outside_cons (by decide), Lexer.outside_blank_cons hws (by decide)]
    rfl
  | obj _ ih =>
    rw [Lexer.outside_cons (by decide), ih]
    rfl
  | lastElement rest hws _ hws' ih =>
    rw [Lexer.outside_append (quote_not_mem_blank hws), ih, Lexer.outside_blank_cons hws' (by decide), Goal.strings,
      Goal.strings, Nodes.strings, Nodes.strings, List.append_nil]
  | element hws _ hws' _ ih ihs =>
    rw [Lexer.outside_append (quote_not_mem_blank hws), ih, Lexer.outside_blank_cons hws' (by decide), ihs,
      ← List.append_assoc, ← List.map_append]
    rfl
  | lastMember rest hws hk hws1 hws2 _ hws' ih =>
    rw [Lexer.outside_key hws hk hws1 hws2, ih, Lexer.outside_blank_cons hws' (by decide), Goal.strings, Goal.strings,
      Members.strings, Members.strings, List.append_nil]
    rfl
  | member hws hk hws1 hws2 _ hws' _ ih ihs =>
    rw [Lexer.outside_key hws hk hws1 hws2, ih, Lexer.outside_blank_cons hws' (by decide), ihs, ← List.append_assoc,
      ← List.map_append]
    rfl

/-- The texts that are printed for the strings of a text. -/
def Printed : Bool → List (List Piece) → List (List Char) → Prop
  | _, [], ts => ts = []
  | inString, ps :: strings, ts => ∃ (inner : Printer) (more : List (List Char)), inner.inString = !inString ∧
      ts = text (inner.pieces ps) :: more ∧ Printed (!(flagAfter (!inString) ps)) strings more

theorem Printed.append {inString : Bool} {ss ss' : List (List Piece)} {ts ts' : List (List Char)}
    (h : Printed inString ss ts) (h' : Printed (leave inString ss) ss' ts') :
    Printed inString (ss ++ ss') (ts ++ ts') := by
  induction ss generalizing inString ts with
  | nil =>
    obtain rfl : ts = [] := h
    exact h'
  | cons ps ss ih =>
    obtain ⟨inner, more, hinner, rfl, hmore⟩ := h
    exact ⟨inner, more ++ ts', hinner, rfl, ih hmore h'⟩

theorem Printer.mem_step {c d : Char} (hd : d ∈ (p.step c).1) : d = c ∨ IsWs d := by
  unfold Printer.step at hd
  split_ifs at hd
  · exact .inl (List.mem_singleton.mp hd)
  · exact .inl (List.mem_singleton.mp hd)
  · rcases List.mem_cons.mp hd with hd | hd
    · exact .inl hd
    · exact .inr (blank_spaces _ d hd)
  · rcases List.mem_append.mp hd with hd | hd
    · exact .inr (blank_spaces _ d hd)
    · exact .inl (List.mem_singleton.mp hd)
  · rcases List.mem_cons.mp hd with hd | hd
    · exact .inl hd
    · exact .inr (blank_spaces _ d hd)
  · rename_i hcolon
    rcases List.mem_cons.mp hd with hd | hd
    · exact .inl (hd.trans hcolon.symm)
    · exact .inr (.inl (List.mem_singleton.mp hd))
  · exact absurd hd List.not_mem_nil
  · exact .inl (List.mem_singleton.mp hd)

theorem Printer.loose_pieces (hps : ∀ q ∈ ps, q.Ok) (p : Printer) : ∀ q ∈ p.pieces ps, q.Loose := by
  induction ps generalizing p with
  | nil => exact nofun
  | cons q ps ih =>
    obtain ⟨hq, hps⟩ := List.forall_mem_cons.mp hps
    refine List.forall_mem_append.mpr ⟨?_, ih hps _⟩
    cases q with
    | plain c =>
      intro r hr
      obtain ⟨d, hd, rfl⟩ := List.mem_map.mp hr
      rcases Printer.mem_step hd with rfl | hblank
      · exact hq.2
      · constructor
        · rintro rfl
          exact absurd hblank (by simp [IsWs])
        · rintro rfl
          exact absurd hblank (by simp [IsWs])
    | escape e => exact List.forall_mem_singleton.mpr hq
    | unicode => exact List.forall_mem_singleton.mpr hq

theorem Printer.strings_blank (hws : Blank ws) (p : Printer) (s : List Char) :
    Lexer.strings .outside (p.print (ws ++ s)) = Lexer.strings .outside (p.print s) := by
  obtain ⟨v, hv, hblank⟩ := p.print_blank hws s
  rw [hblank, Lexer.outside_append (quote_not_mem_blank hv)]

theorem Printer.strings_mark (p : Printer) (hc : c ∈ ['{', '[', ',', ':', '}', ']'])
    (hws : Blank ws) : ∃ q : Printer, q.inString = p.inString ∧
      ∀ s, Lexer.strings .outside (p.print (ws ++ c :: s)) = Lexer.strings .outside (q.print s) := by
  have hquote : c ≠ '"' := by
    rintro rfl
    exact absurd hc (by decide)
  rcases List.mem_append.mp (show c ∈ ['{', '[', ',', ':'] ++ ['}', ']'] from hc) with hc | hc
  · obtain ⟨v, q, hv, hq, hprint⟩ := p.print_open hc
    refine ⟨q, hq, fun s => ?_⟩
    rw [p.strings_blank hws, hprint, Lexer.outside_cons hquote, Lexer.outside_append (quote_not_mem_blank hv)]
  · obtain ⟨v, q, hv, hq, hprint⟩ := p.print_close hc
    refine ⟨q, hq, fun s => ?_⟩
    rw [p.strings_blank hws, hprint, Lexer.outside_blank_cons hv hquote]

theorem Printer.strings_ordinary (hw : ∀ c ∈ w, Ordinary c) (p : Printer) (s : List Char) :
    Lexer.strings .outside (p.print (w ++ s)) = Lexer.strings .outside (p.print s) := by
  rw [p.print_ordinary hw]
  apply Lexer.outside_append
  exact fun hmem => hw _ hmem List.mem_cons_self

theorem Printer.strings_quoted (hps : ∀ q ∈ ps, q.Ok) (p : Printer) (s : List Char) :
    ∃ inner q : Printer, inner.inString = !p.inString ∧ q.inString = !(flagAfter (!p.inString) ps) ∧
      Lexer.strings .outside (p.print (quoted (text ps) ++ s)) =
        text (inner.pieces ps) :: Lexer.strings .outside (q.print s) := by
  obtain ⟨inner, q, hinner, hq, hprint⟩ := Printer.print_string hps p s
  refine ⟨inner, q, hinner, hq, ?_⟩
  rw [hprint, Lexer.outside_quoted (inner.loose_pieces hps)]

theorem derives_printed {g : Goal} {s rest : List Char} (h : Derives g s rest) (p : Printer) :
    ∃ (q : Printer) (ts : List (List Char)), q.inString = leave p.inString g.strings ∧
      Printed p.inString g.strings ts ∧
      Lexer.strings .outside (p.print s) = ts ++ Lexer.strings .outside (q.print rest) := by
  induction h generalizing p with
  | null rest => exact ⟨p, [], rfl, rfl, p.strings_ordinary (forall_of_all (by decide)) rest⟩
  | true rest => exact ⟨p, [], rfl, rfl, p.strings_ordinary (forall_of_all (by decide)) rest⟩
  | false rest => exact ⟨p, [], rfl, rfl, p.strings_ordinary (forall_of_all (by decide)) rest⟩
  | num rest hnumber => exact ⟨p, [], rfl, rfl, p.strings_ordinary (ordinary_of_isNumber hnumber) rest⟩
  | str rest hps =>
    obtain ⟨inner, q, hinner, hq, hstrings⟩ := p.strings_quoted hps rest
    exact ⟨q, [text (inner.pieces _)], hq, ⟨inner, [], hinner, rfl, rfl⟩, hstrings⟩
  | @emptyArr ws rest hws =>
    obtain ⟨q, hq, hopen⟩ := p.strings_mark (c := '[') (by decide) blank_nil
    obtain ⟨q', hq', hclose⟩ := q.strings_mark (c := ']') (by decide) hws
    exact ⟨q', [], hq'.trans hq, rfl, (hopen _).trans (hclose rest)⟩
  | @arr ts s rest hts ih =>
    obtain ⟨q, hq, hopen⟩ := p.strings_mark (c := '[') (by decide) blank_nil
    obtain ⟨q', ts, hq', hprinted, hstrings⟩ := ih q
    rw [hq] at hq' hprinted
    exact ⟨q', ts, hq', hprinted, (hopen s).trans hstrings⟩
  | @emptyObj ws rest hws =>
    obtain ⟨q, hq, hopen⟩ := p.strings_mark (c := '{') (by decide) blank_nil
    obtain ⟨q', hq', hclose⟩ := q.strings_mark (c := '}') (by decide) hws
    exact ⟨q', [], hq'.trans hq, rfl, (hopen _).trans (hclose rest)⟩
  | @obj ms s rest hms ih =>
    obtain ⟨q, hq, hopen⟩ := p.strings_mark (c := '{') (by decide) blank_nil
    obtain ⟨q', ts, hq', hprinted, hstrings⟩ := ih q
    rw [hq] at hq' hprinted
    exact ⟨q', ts, hq', hprinted, (hopen s).trans hstrings⟩
  | @lastElement t ws ws' s rest hws ht hws' ih =>
    have hall : (Goal.elements (.cons t .nil)).strings = t.strings := List.append_nil _
    obtain ⟨q, ts, hq, hprinted, hstrings⟩ := ih p
    obtain ⟨q', hq', hclose⟩ := q.strings_mark (c := ']') (by decide) hws'
    rw [hall]
    refine ⟨q', ts, hq'.trans hq, hprinted, ?_⟩
    rw [p.strings_blank hws, hstrings, hclose]
  | @element t ts ws ws' s s' rest hws ht hws' hts ih ihs =>
    obtain ⟨q, ss, hq, hprinted, hstrings⟩ := ih p
    obtain ⟨q', hq', hcomma⟩ := q.strings_mark (c := ',') (by decide) hws'
    obtain ⟨q'', ss', hq'', hprinted', hstrings'⟩ := ihs q'
    rw [hq', hq] at hq'' hprinted'
    refine ⟨q'', ss ++ ss', hq''.trans (leave_append _ _ _).symm, hprinted.append hprinted', ?_⟩
    rw [p.strings_blank hws, hstrings, hcomma, hstrings', List.append_assoc]
  | @lastMember k t ws ws1 ws2 ws' s rest hws hk hws1 hws2 ht hws' ih =>
    have hall : (Goal.members (.cons k t .nil)).strings = k :: t.strings := congrArg (k :: ·) (List.append_nil _)
    obtain ⟨inner, q, hinner, hq, hkey⟩ := p.strings_quoted hk (ws1 ++ ':' :: (ws2 ++ s))
    obtain ⟨q', hq', hcolon⟩ := q.strings_mark (c := ':') (by decide) hws1
    obtain ⟨q'', ts, hq'', hprinted, hstrings⟩ := ih q'
    obtain ⟨q3, hq3, hclose⟩ := q''.strings_mark (c := '}') (by decide) hws'
    rw [hq', hq] at hq'' hprinted
    rw [hall]
    refine ⟨q3, text (inner.pieces k) :: ts, hq3.trans hq'', ⟨inner, ts, hinner, rfl, hprinted⟩, ?_⟩
    rw [p.strings_blank hws, hkey, hcolon, q'.strings_blank hws2, hstrings, hclose]
    rfl
  | @member k t ms ws ws1 ws2 ws' s s' rest hws hk hws1 hws2 ht hws' hms ih ihs =>
    obtain ⟨inner, q, hinner, hq, hkey⟩ := p.strings_quoted hk (ws1 ++ ':' :: (ws2 ++ s))
    obtain ⟨q', hq', hcolon⟩ := q.strings_mark (c := ':') (by decide) hws1
    obtain ⟨q'', ts, hq'', hprinted, hstrings⟩ := ih q'
    obtain ⟨q3, hq3, hcomma⟩ := q''.strings_mark (c := ',') (by decide) hws'
    obtain ⟨q4, ts', hq4, hprinted', hstrings'⟩ := ihs q3
    rw [hq', hq] at hq'' hprinted
    rw [hq3, hq''] at hq4 hprinted'
    refine ⟨q4, text (inner.pieces k) :: (ts ++ ts'), hq4.trans (leave_append _ _ _).symm,
      ⟨inner, ts ++ ts', hinner, rfl, hprinted.append hprinted'⟩, ?_⟩
    rw [p.strings_blank hws, hkey, hcolon, q'.strings_blank hws2, hstrings, hcomma, hstrings', List.cons_append,
      List.append_assoc]

theorem escape_letter_inj {e e' : Escape} (h : e.letter = e'.letter) : e = e' := by
  cases e <;> cases e' <;> first | rfl | exact absurd h (by decide)

theorem escape_letter_ne (e : Escape) : e.letter ≠ 'u' := by
  cases e <;> decide

/-- Pieces that end no string are told apart by their texts. -/
theorem Piece.text_inj {p q : Piece} (hp : p.Loose) (hq : q.Loose) {s t : List Char} (h : p.text ++ s = q.text ++ t) :
    p = q ∧ s = t := by
  cases p with
  | plain c =>
    cases q with
    | plain d =>
      obtain ⟨rfl, hrest⟩ := List.cons.inj h
      exact ⟨rfl, hrest⟩
    | escape e' => exact absurd (List.cons.inj h).1 hp.2
    | unicode => exact absurd (List.cons.inj h).1 hp.2
  | escape e =>
    cases q with
    | plain d => exact absurd (List.cons.inj h).1.symm hq.2
    | escape e' =>
      obtain ⟨hletter, hrest⟩ := List.cons.inj (List.cons.inj h).2
      exact ⟨congrArg Piece.escape (escape_letter_inj hletter), hrest⟩
    | unicode => exact absurd (List.cons.inj (List.cons.inj h).2).1 (escape_letter_ne e)
  | unicode h1 h2 h3 h4 =>
    cases q with
    | plain d => exact absurd (List.cons.inj h).1.symm hq.2
    | escape e' => exact absurd (List.cons.inj (List.cons.inj h).2).1.symm (escape_letter_ne e')
    | unicode =>
      injection h with _ h
      injection h with _ h
      injection h with hh1 h
      injection h with hh2 h
      injection h with hh3 h
      injection h with hh4 h
      exact ⟨by rw [hh1, hh2, hh3, hh4], h⟩

theorem text_inj {ps qs : List Piece} (hps : ∀ p ∈ ps, p.Loose) (hqs : ∀ q ∈ qs, q.Loose) (h : text ps = text qs) :
    ps = qs := by
  induction ps generalizing qs with
  | nil =>
    cases qs with
    | nil => rfl
    | cons q qs => cases q <;> exact absurd h (List.cons_ne_nil _ _).symm
  | cons p ps ih =>
    obtain ⟨hp, hps⟩ := List.forall_mem_cons.mp hps
    cases qs with
    | nil => cases p <;> exact absurd h (List.cons_ne_nil _ _)
    | cons q qs =>
      obtain ⟨hq, hqs'⟩ := List.forall_mem_cons.mp hqs
      rw [text_cons, text_cons] at h
      obtain ⟨rfl, hrest⟩ := Piece.text_inj hp hq h
      rw [ih hps hqs' hrest]

/-- The strings that are read back have the units of the strings of the text only if those come through. -/
theorem met_of_printed {inString : Bool} {ss rs : List (List Piece)} (hss : ∀ ps ∈ ss, ∀ q ∈ ps, q.Ok)
    (hrs : ∀ ps ∈ rs, ∀ q ∈ ps, q.Ok) (hunits : rs.map units = ss.map units)
    (h : Printed inString ss (rs.map text)) : Met inString ss := by
  induction ss generalizing inString rs with
  | nil => trivial
  | cons ps ss ih =>
    obtain ⟨hps, hss'⟩ := List.forall_mem_cons.mp hss
    cases rs with
    | nil => exact absurd hunits (List.cons_ne_nil _ _).symm
    | cons qs rs =>
      obtain ⟨hqs, hrs'⟩ := List.forall_mem_cons.mp hrs
      obtain ⟨hsame, hunits'⟩ := List.cons.inj hunits
      obtain ⟨inner, more, hinner, htexts, hmore⟩ := h
      obtain ⟨htext, rfl⟩ := List.cons.inj htexts
      obtain rfl := text_inj (fun q hq => (hqs q hq).loose) (inner.loose_pieces hps) htext
      have hkept := (Printer.keeps_iff hps false nofun).mp ⟨hsame, hqs⟩
      rw [hinner] at hkept
      exact ⟨hkept, ih hss' hrs' hunits' hmore⟩

mutual

theorem Node.all_strings {P : List Piece → Prop} {N : List Char → Prop} :
    ∀ t : Node (List Piece), t.All P N → ∀ s ∈ t.strings, P s
  | .null, _ | .bool _, _ | .num _, _ => nofun
  | .str _, h => List.forall_mem_singleton.mpr h
  | .arr ts, h => Nodes.all_strings ts h
  | .obj ms, h => Members.all_strings ms h

theorem Nodes.all_strings {P : List Piece → Prop} {N : List Char → Prop} :
    ∀ ts : Nodes (List Piece), ts.All P N → ∀ s ∈ ts.strings, P s
  | .nil, _ => nofun
  | .cons t ts, h => List.forall_mem_append.mpr ⟨Node.all_strings t h.1, Nodes.all_strings ts h.2⟩

theorem Members.all_strings {P : List Piece → Prop} {N : List Char → Prop} :
    ∀ ms : Members (List Piece), ms.All P N → ∀ s ∈ ms.strings, P s
  | .nil, _ => nofun
  | .cons _ t ms, h => List.forall_mem_cons.mpr
      ⟨h.1, List.forall_mem_append.mpr ⟨Node.all_strings t h.2.1, Members.all_strings ms h.2.2⟩⟩

end

theorem strings_of_text {s : List Char} {t : Node (List Piece)} (h : Text s t) :
    (∀ ps ∈ t.strings, ∀ q ∈ ps, q.Ok) ∧ Lexer.strings .outside s = t.strings.map text := by
  obtain ⟨ws, s', ws', rfl, hws, ht, hws'⟩ := h
  refine ⟨Node.all_strings t (wellFormed_of_derives ht), ?_⟩
  have hend := Lexer.outside_append (quote_not_mem_blank hws') []
  rw [List.append_nil] at hend
  rw [Lexer.outside_append (quote_not_mem_blank hws), derives_strings ht, hend, Lexer.strings, List.append_nil]
  rfl

theorem met_of_denotes {s : List Char} {t : Node (List Piece)} (h : Text s t)
    (hdenotes : Denotes (ntscJsonStringifyPretty s) t.value) : Met false t.strings := by
  obtain ⟨t', htext', hvalue⟩ := hdenotes
  obtain ⟨hok', hstrings'⟩ := strings_of_text htext'
  obtain ⟨hok, -⟩ := strings_of_text h
  obtain ⟨ws, s', ws', rfl, hws, ht, hws'⟩ := h
  obtain ⟨q, ts, -, hprinted, hstrings⟩ := derives_printed ht ⟨false, 0⟩
  have hend := q.strings_blank hws' []
  rw [List.append_nil] at hend
  rw [ntscJsonStringifyPretty, Printer.strings_blank hws, hstrings, hend, Printer.print, Lexer.strings,
    List.append_nil] at hstrings'
  rw [hstrings'] at hprinted
  refine met_of_printed hok hok' ?_ hprinted
  rw [← Node.strings_map, ← Node.strings_map]
  exact congrArg Node.strings hvalue

/-- The pretty-printed text has the value of the text, and printing it again keeps it, exactly when every
string comes through with the flag it is met with. -/
theorem stringifyPretty_denotes_iff {s : List Char} {t : Node (List Piece)} (h : Text s t) :
    (Denotes (ntscJsonStringifyPretty s) t.value ∧
      Denotes (ntscJsonStringifyPretty (ntscJsonStringifyPretty s)) t.value) ↔ Met false t.strings := by
  constructor
  · exact fun hdenotes => met_of_denotes h hdenotes.1
  · intro hmet
    obtain ⟨t', hvalue, hmet', htext⟩ := text_print h ⟨false, 0⟩ hmet
    obtain ⟨t'', hvalue', -, htext'⟩ := text_print htext ⟨false, 0⟩ hmet'
    exact ⟨⟨t', htext, hvalue⟩, t'', htext', hvalue'.trans hvalue⟩

theorem stringifyPretty_denotes_nestedList :
    Denotes (ntscJsonStringifyPretty (compact nestedList)) nestedList.value ∧
      Denotes (ntscJsonStringifyPretty (ntscJsonStringifyPretty (compact nestedList))) nestedList.value := by
  refine (stringifyPretty_denotes_iff (text_compact wellFormed_nestedList)).mpr ?_
  simp [nestedList, Node.strings, Nodes.strings, Members.strings, Met, Kept, flagAfter, Piece.toggles]

/-- After an escaped quote a comma is followed by a line break, which no string may hold. -/
theorem stringifyPretty_breaks_string : ¬ ∀ (s : List Char) (t : Node (List Piece)), Text s t →
    Denotes (ntscJsonStringifyPretty s) t.value ∧
      Denotes (ntscJsonStringifyPretty (ntscJsonStringifyPretty s)) t.value := by
  intro hall
  let ps : List Piece := [.escape .quote, .plain 'a', .plain ',', .plain 'b', .escape .quote]
  have hok : ∀ p ∈ ps, p.Ok := by
    simp only [ps, List.forall_mem_cons]
    exact ⟨trivial, (by decide : Unescaped 'a'), (by decide : Unescaped ','), (by decide : Unescaped 'b'), trivial,
      nofun⟩
  have htext : Text ['"', '\\', '"', 'a', ',', 'b', '\\', '"', '"'] (.str ps) := text_compact (t := .str ps) hok
  have hmet := met_of_denotes htext (hall _ _ htext).1
  have hcomma : Kept false false (.plain ',' :: [.plain 'b', .escape .quote]) := hmet.1.2.2.2
  exact hcomma.2.1 (by decide)

end Neutron.Json
