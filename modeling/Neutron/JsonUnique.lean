import Neutron.JsonPretty

/-!
# JSON texts denote one value

Two derivations from one text read the same value, so that whatever reads a text by the grammar finds
the same members, elements and strings in it.
-/

namespace Neutron.Json

open JsonParser

/-! ## Where a part ends -/

/-- A character at which no whitespace goes on. -/
def Begins (s : List Char) : Prop := ∃ c cs, s = c :: cs ∧ ¬IsWs c

theorem begins_cons {c : Char} (hc : ¬IsWs c) (s : List Char) : Begins (c :: s) := ⟨c, s, rfl, hc⟩

variable {s rest : List Char}

theorem begins_value {t : Node (List Piece)} (h : Derives (.value t) s rest) : Begins s := by
  obtain ⟨c, cs, rfl, hc⟩ := opens_of_derives h
  exact begins_cons (not_isWs_of_opens hc) cs

theorem blank_split {ws ws' s s' : List Char} (hws : Blank ws) (hws' : Blank ws') (hs : Begins s) (hs' : Begins s')
    (h : ws ++ s = ws' ++ s') : s = s' := by
  induction ws generalizing ws' with
  | nil =>
    obtain ⟨c, cs, rfl, hc⟩ := hs
    exact (blank_before hws' hc h.symm).2.symm
  | cons c ws ih =>
    cases ws' with
    | nil =>
      obtain ⟨d, ds, rfl, hd⟩ := hs'
      obtain ⟨rfl, -⟩ := List.cons.inj h
      exact absurd (hws c List.mem_cons_self) hd
    | cons c' ws' =>
      exact ih (fun d hd => hws d (List.mem_cons_of_mem _ hd)) (fun d hd => hws' d (List.mem_cons_of_mem _ hd))
        (List.cons.inj h).2

/-- Whitespace and a mark, and what is after them. -/
theorem mark_split {ws ws' s s' : List Char} {c c' : Char} (hws : Blank ws) (hws' : Blank ws') (hc : ¬IsWs c)
    (hc' : ¬IsWs c') (h : ws ++ c :: s = ws' ++ c' :: s') : c = c' ∧ s = s' :=
  List.cons.inj (blank_split hws hws' (begins_cons hc s) (begins_cons hc' s') h)

theorem text_split {ps qs : List Piece} {s t : List Char} (hps : ∀ p ∈ ps, p.Ok) (hqs : ∀ q ∈ qs, q.Ok)
    (h : text ps ++ '"' :: s = text qs ++ '"' :: t) : ps = qs ∧ s = t := by
  induction ps generalizing qs with
  | nil =>
    cases qs with
    | nil => exact ⟨rfl, (List.cons.inj h).2⟩
    | cons q qs =>
      rw [text_cons, List.append_assoc] at h
      exact absurd h.symm (Piece.text_ne_quote (hqs q List.mem_cons_self) _ _)
  | cons p ps ih =>
    obtain ⟨hp, hps⟩ := List.forall_mem_cons.mp hps
    rw [text_cons, List.append_assoc] at h
    cases qs with
    | nil => exact absurd h (Piece.text_ne_quote hp _ _)
    | cons q qs =>
      obtain ⟨hq, hqs'⟩ := List.forall_mem_cons.mp hqs
      rw [text_cons, List.append_assoc] at h
      obtain ⟨rfl, hrest⟩ := Piece.text_inj hp.loose hq.loose h
      obtain ⟨rfl, hst⟩ := ih hps hqs' hrest
      exact ⟨rfl, hst⟩

theorem quoted_append (w s : List Char) : quoted w ++ s = '"' :: (w ++ '"' :: s) := by
  rw [quoted, List.cons_append, List.append_assoc, List.singleton_append]

theorem quoted_split {ps qs : List Piece} {s t : List Char} (hps : ∀ p ∈ ps, p.Ok) (hqs : ∀ q ∈ qs, q.Ok)
    (h : quoted (text ps) ++ s = quoted (text qs) ++ t) : ps = qs ∧ s = t := by
  rw [quoted_append, quoted_append] at h
  exact text_split hps hqs (List.cons.inj h).2

/-- A character a number is written with. -/
def Numeric (c : Char) : Prop := c.isDigit ∨ c = '-' ∨ c = '+' ∨ c = '.' ∨ c = 'e' ∨ c = 'E'

theorem numeric_of_isNumber {digits : List Char} (h : IsNumber digits) : ∀ c ∈ digits, Numeric c := by
  have hdigits : ∀ {ds : List Char}, Digits ds → ∀ c ∈ ds, Numeric c := fun hds c hc => .inl (hds.2 c hc)
  obtain ⟨sign, int, frac, exp, hsign, hint, hfrac, hexp⟩ := h
  intro c hc
  rcases List.mem_append.mp hc with hc | hc
  · rcases List.mem_append.mp hc with hc | hc
    · rcases List.mem_append.mp hc with hc | hc
      · rcases hsign with rfl | rfl
        · exact absurd hc List.not_mem_nil
        · exact .inr (.inl (List.mem_singleton.mp hc))
      · exact hdigits (digits_of_int hint) c hc
    · rcases hfrac with rfl | ⟨ds, rfl, hds⟩
      · exact absurd hc List.not_mem_nil
      · rcases List.mem_cons.mp hc with rfl | hc
        · exact .inr (.inr (.inr (.inl rfl)))
        · exact hdigits hds c hc
  · rcases hexp with rfl | ⟨e, s, ds, rfl, he, hs, hds⟩
    · exact absurd hc List.not_mem_nil
    · rcases List.mem_cons.mp hc with rfl | hc
      · exact .inr (.inr (.inr (.inr he)))
      · rcases List.mem_append.mp hc with hc | hc
        · rcases hs with rfl | rfl | rfl
          · exact absurd hc List.not_mem_nil
          · exact .inr (.inr (.inl (List.mem_singleton.mp hc)))
          · exact .inr (.inl (List.mem_singleton.mp hc))
        · exact hdigits hds c hc

theorem not_numeric_of_stops {rest : List Char} (h : Stops rest) : ∀ c, rest.head? = some c → ¬Numeric c := by
  intro c hc
  rcases h c hc with (rfl | rfl | rfl | rfl) | rfl | rfl | rfl <;> simp [Numeric]

theorem number_split {digits digits' rest rest' : List Char} (h : ∀ c ∈ digits, Numeric c)
    (h' : ∀ c ∈ digits', Numeric c) (hrest : Stops rest) (hrest' : Stops rest')
    (heq : digits ++ rest = digits' ++ rest') : digits = digits' ∧ rest = rest' := by
  induction digits generalizing digits' with
  | nil =>
    cases digits' with
    | nil => exact ⟨rfl, heq⟩
    | cons c digits' =>
      have hhead : rest.head? = some c := by rw [← List.nil_append rest, heq]; rfl
      exact absurd (h' c List.mem_cons_self) (not_numeric_of_stops hrest c hhead)
  | cons c digits ih =>
    cases digits' with
    | nil =>
      have hhead : rest'.head? = some c := by rw [← List.nil_append rest', ← heq]; rfl
      exact absurd (h c List.mem_cons_self) (not_numeric_of_stops hrest' c hhead)
    | cons c' digits' =>
      obtain ⟨rfl, htail⟩ := List.cons.inj heq
      obtain ⟨rfl, hsame⟩ := ih (fun d hd => h d (List.mem_cons_of_mem _ hd))
        (fun d hd => h' d (List.mem_cons_of_mem _ hd)) htail
      exact ⟨rfl, hsame⟩

/-! ## One value -/

/-- What kind of value a first character begins. -/
def kindOf (c : Char) : Char := if c = '-' ∨ c.isDigit then '0' else c

def Node.kind : Node (List Piece) → Char
  | .null => 'n'
  | .bool true => 't'
  | .bool false => 'f'
  | .num _ => '0'
  | .str _ => '"'
  | .arr _ => '['
  | .obj _ => '{'

theorem kind_of_derives {t : Node (List Piece)} (h : Derives (.value t) s rest) :
    ∃ c cs, s = c :: cs ∧ kindOf c = t.kind := by
  cases h with
  | null => exact ⟨_, _, rfl, rfl⟩
  | true => exact ⟨_, _, rfl, rfl⟩
  | false => exact ⟨_, _, rfl, rfl⟩
  | num rest hnumber =>
    obtain ⟨d, cs, hdigits, hd, -⟩ := split_isNumber hnumber
    rcases hdigits with rfl | rfl
    · exact ⟨d, cs ++ rest, rfl, if_pos (.inr hd)⟩
    · exact ⟨'-', d :: cs ++ rest, rfl, rfl⟩
  | str => exact ⟨_, _, rfl, rfl⟩
  | emptyArr => exact ⟨_, _, rfl, rfl⟩
  | arr => exact ⟨_, _, rfl, rfl⟩
  | emptyObj => exact ⟨_, _, rfl, rfl⟩
  | obj => exact ⟨_, _, rfl, rfl⟩

/-- Every other derivation from the same text agrees. -/
def Determined : Goal → List Char → List Char → Prop
  | .value t, s, rest => ∀ t' rest', Derives (.value t') s rest' → Stops rest → Stops rest' → t = t' ∧ rest = rest'
  | .elements ts, s, rest => ∀ ts' rest', Derives (.elements ts') s rest' → ts = ts' ∧ rest = rest'
  | .members ms, s, rest => ∀ ms' rest', Derives (.members ms') s rest' → ms = ms' ∧ rest = rest'

/-- The elements of an array that is not empty begin with a value. -/
theorem elements_value {ts : Nodes (List Piece)} (h : Derives (.elements ts) s rest) :
    ∃ t more ws s' ws' c tail, ts = .cons t more ∧ s = ws ++ s' ∧ Blank ws ∧ Blank ws' ∧
      Derives (.value t) s' (ws' ++ c :: tail) ∧
        (c = ']' ∧ more = .nil ∧ tail = rest ∨ c = ',' ∧ Derives (.elements more) tail rest) := by
  cases h with
  | lastElement rest hws ht hws' => exact ⟨_, _, _, _, _, _, _, rfl, rfl, hws, hws', ht, .inl ⟨rfl, rfl, rfl⟩⟩
  | element hws ht hws' hts => exact ⟨_, _, _, _, _, _, _, rfl, rfl, hws, hws', ht, .inr ⟨rfl, hts⟩⟩

theorem members_value {ms : Members (List Piece)} (h : Derives (.members ms) s rest) :
    ∃ k t more ws ws1 ws2 s' ws' c tail, ms = .cons k t more ∧
      s = ws ++ (quoted (text k) ++ (ws1 ++ ':' :: (ws2 ++ s'))) ∧
        (Blank ws ∧ Blank ws1 ∧ Blank ws2 ∧ Blank ws' ∧ ∀ p ∈ k, p.Ok) ∧ Derives (.value t) s' (ws' ++ c :: tail) ∧
          (c = '}' ∧ more = .nil ∧ tail = rest ∨ c = ',' ∧ Derives (.members more) tail rest) := by
  cases h with
  | lastMember rest hws hk hws1 hws2 ht hws' =>
    exact ⟨_, _, _, _, _, _, _, _, _, _, rfl, rfl, ⟨hws, hws1, hws2, hws', hk⟩, ht, .inl ⟨rfl, rfl, rfl⟩⟩
  | member hws hk hws1 hws2 ht hws' hms =>
    exact ⟨_, _, _, _, _, _, _, _, _, _, rfl, rfl, ⟨hws, hws1, hws2, hws', hk⟩, ht, .inr ⟨rfl, hms⟩⟩

/-- What begins a value does not close an array. -/
theorem not_opens_close {ws s : List Char} (hws : Blank ws) {ws' s' rest' : List Char} {t : Node (List Piece)}
    (hws' : Blank ws') (ht : Derives (.value t) s' rest') : ws ++ ']' :: s ≠ ws' ++ s' := by
  intro heq
  have hs := blank_split hws hws' (begins_cons (by simp [IsWs]) s) (begins_value ht) heq
  obtain ⟨d, ds, rfl, hd⟩ := opens_of_derives ht
  obtain ⟨rfl, -⟩ := List.cons.inj hs
  exact absurd hd (by simp [Opens])

/-- How a value is written. -/
def Shape (s rest : List Char) : Node (List Piece) → Prop
  | .null => s = ['n', 'u', 'l', 'l'] ++ rest
  | .bool true => s = ['t', 'r', 'u', 'e'] ++ rest
  | .bool false => s = ['f', 'a', 'l', 's', 'e'] ++ rest
  | .num digits => s = digits ++ rest ∧ IsNumber digits
  | .str ps => s = quoted (text ps) ++ rest ∧ ∀ p ∈ ps, p.Ok
  | .arr ts => ∃ s', s = '[' :: s' ∧
      ((ts = .nil ∧ ∃ ws, Blank ws ∧ s' = ws ++ ']' :: rest) ∨ Derives (.elements ts) s' rest)
  | .obj ms => ∃ s', s = '{' :: s' ∧
      ((ms = .nil ∧ ∃ ws, Blank ws ∧ s' = ws ++ '}' :: rest) ∨ Derives (.members ms) s' rest)

theorem shape_of_derives {t : Node (List Piece)} (h : Derives (.value t) s rest) : Shape s rest t := by
  cases h with
  | null => exact rfl
  | true => exact rfl
  | false => exact rfl
  | num rest hnumber => exact ⟨rfl, hnumber⟩
  | str rest hps => exact ⟨rfl, hps⟩
  | emptyArr rest hws => exact ⟨_, rfl, .inl ⟨rfl, _, hws, rfl⟩⟩
  | arr hts => exact ⟨_, rfl, .inr hts⟩
  | emptyObj rest hws => exact ⟨_, rfl, .inl ⟨rfl, _, hws, rfl⟩⟩
  | obj hms => exact ⟨_, rfl, .inr hms⟩

variable {t t' : Node (List Piece)}

/-- What a text begins with tells which kind of value it is. -/
theorem same_kind {s rest rest' : List Char} (h : Derives (.value t) s rest)
    (h' : Derives (.value t') s rest') : t.kind = t'.kind := by
  obtain ⟨c, cs, rfl, hc⟩ := kind_of_derives h
  obtain ⟨c', cs', hs, hc'⟩ := kind_of_derives h'
  rw [← hc, ← hc', (List.cons.inj hs).1]

/-- A tree of the same kind. -/
def Alike (t' : Node (List Piece)) : Node (List Piece) → Prop
  | .null => t' = .null
  | .bool b => t' = .bool b
  | .num _ => ∃ digits, t' = .num digits
  | .str _ => ∃ ps, t' = .str ps
  | .arr _ => ∃ ts, t' = .arr ts
  | .obj _ => ∃ ms, t' = .obj ms

theorem alike_of_kind (h : t.kind = t'.kind) : Alike t' t := by
  rcases t with _ | (_ | _) | _ | _ | _ | _ <;> rcases t' with _ | (_ | _) | _ | _ | _ | _ <;>
    simp_all [Node.kind, Alike]

/-- A value is read the same, and so is the mark after it. -/
theorem Determined.marked {t t' : Node (List Piece)} {s ws ws' tail tail' : List Char} {c c' : Char}
    (h : Determined (.value t) s (ws ++ c :: tail)) (ht' : Derives (.value t') s (ws' ++ c' :: tail'))
    (hws : Blank ws) (hws' : Blank ws') (hc : c = ',' ∨ c = ']' ∨ c = '}') (hc' : c' = ',' ∨ c' = ']' ∨ c' = '}') :
    t = t' ∧ c = c' ∧ tail = tail' := by
  have hmark : ∀ {d : Char}, (d = ',' ∨ d = ']' ∨ d = '}') → ¬IsWs d := by
    rintro d (rfl | rfl | rfl) <;> simp [IsWs]
  obtain ⟨rfl, hrest⟩ := h t' _ ht' (stops_append hws (stops_cons hc _)) (stops_append hws' (stops_cons hc' _))
  exact ⟨rfl, mark_split hws hws' (hmark hc) (hmark hc') hrest⟩

theorem member_split {k k' : List Piece}
    {ws ws' ws1 ws1' ws2 ws2' s s' rest rest' : List Char} (hws : Blank ws) (hws' : Blank ws') (hws1 : Blank ws1)
    (hws1' : Blank ws1') (hws2 : Blank ws2) (hws2' : Blank ws2') (hk : ∀ p ∈ k, p.Ok) (hk' : ∀ p ∈ k', p.Ok)
    (ht : Derives (.value t) s rest) (ht' : Derives (.value t') s' rest')
    (h : ws ++ (quoted (text k) ++ (ws1 ++ ':' :: (ws2 ++ s))) =
      ws' ++ (quoted (text k') ++ (ws1' ++ ':' :: (ws2' ++ s')))) : k = k' ∧ s = s' := by
  have hquote := blank_split hws hws' (begins_cons (by simp [IsWs]) _) (begins_cons (by simp [IsWs]) _) h
  obtain ⟨rfl, hcolon⟩ := quoted_split hk hk' hquote
  have hvalue := (mark_split hws1 hws1' (by simp [IsWs]) (by simp [IsWs]) hcolon).2
  exact ⟨rfl, blank_split hws2 hws2' (begins_value ht) (begins_value ht') hvalue⟩

theorem determined_of_derives {g : Goal} (h : Derives g s rest) : Determined g s rest := by
  induction h with
  | null rest =>
    intro t' rest' h' _ _
    obtain rfl := alike_of_kind (same_kind (.null rest) h')
    exact ⟨rfl, List.append_cancel_left (shape_of_derives h')⟩
  | true rest =>
    intro t' rest' h' _ _
    obtain rfl := alike_of_kind (same_kind (.true rest) h')
    exact ⟨rfl, List.append_cancel_left (shape_of_derives h')⟩
  | false rest =>
    intro t' rest' h' _ _
    obtain rfl := alike_of_kind (same_kind (.false rest) h')
    exact ⟨rfl, List.append_cancel_left (shape_of_derives h')⟩
  | num rest hnumber =>
    intro t' rest' h' hrest hrest'
    obtain ⟨digits', rfl⟩ := alike_of_kind (same_kind (.num rest hnumber) h')
    obtain ⟨heq, hnumber'⟩ := shape_of_derives h'
    obtain ⟨rfl, hsame⟩ := number_split (numeric_of_isNumber hnumber) (numeric_of_isNumber hnumber') hrest hrest' heq
    exact ⟨rfl, hsame⟩
  | str rest hps =>
    intro t' rest' h' _ _
    obtain ⟨qs, rfl⟩ := alike_of_kind (same_kind (.str rest hps) h')
    obtain ⟨heq, hqs⟩ := shape_of_derives h'
    obtain ⟨rfl, hsame⟩ := quoted_split hps hqs heq
    exact ⟨rfl, hsame⟩
  | @emptyArr ws rest hws =>
    intro t' rest' h' _ _
    obtain ⟨ts', rfl⟩ := alike_of_kind (same_kind (.emptyArr rest hws) h')
    obtain ⟨s', heq, ⟨rfl, ws', hws', rfl⟩ | hts'⟩ := shape_of_derives h'
    · exact ⟨rfl, (mark_split hws hws' (by simp [IsWs]) (by simp [IsWs]) (List.cons.inj heq).2).2⟩
    · obtain ⟨t, more, ws', s'', ws1, c, tail, rfl, rfl, hws', -, ht, -⟩ := elements_value hts'
      exact absurd (List.cons.inj heq).2 (not_opens_close hws hws' ht)
  | @arr ts s rest hts ih =>
    intro t' rest' h' _ _
    obtain ⟨ts', rfl⟩ := alike_of_kind (same_kind (.arr hts) h')
    obtain ⟨s', heq, ⟨rfl, ws', hws', rfl⟩ | hts'⟩ := shape_of_derives h'
    · obtain ⟨t, more, ws, s'', ws1, c, tail, rfl, rfl, hws, -, ht, -⟩ := elements_value hts
      exact absurd (List.cons.inj heq).2.symm (not_opens_close hws' hws ht)
    · obtain rfl := (List.cons.inj heq).2
      obtain ⟨rfl, hsame⟩ := ih ts' rest' hts'
      exact ⟨rfl, hsame⟩
  | @emptyObj ws rest hws =>
    intro t' rest' h' _ _
    obtain ⟨ms', rfl⟩ := alike_of_kind (same_kind (.emptyObj rest hws) h')
    obtain ⟨s', heq, ⟨rfl, ws', hws', rfl⟩ | hms'⟩ := shape_of_derives h'
    · exact ⟨rfl, (mark_split hws hws' (by simp [IsWs]) (by simp [IsWs]) (List.cons.inj heq).2).2⟩
    · obtain ⟨k, t, more, ws', _, _, _, _, _, _, rfl, rfl, ⟨hws', -⟩, -⟩ := members_value hms'
      have hkey := blank_split hws hws' (begins_cons (by simp [IsWs]) _) (begins_cons (by simp [IsWs]) _)
        (List.cons.inj heq).2
      exact absurd (List.cons.inj hkey).1 (by decide)
  | @obj ms s rest hms ih =>
    intro t' rest' h' _ _
    obtain ⟨ms', rfl⟩ := alike_of_kind (same_kind (.obj hms) h')
    obtain ⟨s', heq, ⟨rfl, ws', hws', rfl⟩ | hms'⟩ := shape_of_derives h'
    · obtain ⟨k, t, more, ws, _, _, _, _, _, _, rfl, rfl, ⟨hws, -⟩, -⟩ := members_value hms
      have hkey := blank_split hws hws' (begins_cons (by simp [IsWs]) _) (begins_cons (by simp [IsWs]) _)
        (List.cons.inj heq).2
      exact absurd (List.cons.inj hkey).1 (by decide)
    · obtain rfl := (List.cons.inj heq).2
      obtain ⟨rfl, hsame⟩ := ih ms' rest' hms'
      exact ⟨rfl, hsame⟩
  | @lastElement t ws ws1 s rest hws ht hws1 ih =>
    intro ts' rest' h'
    obtain ⟨t', more', ws', s', ws1', c', tail', rfl, heq, hws', hws1', ht', hnext⟩ := elements_value h'
    obtain rfl := blank_split hws hws' (begins_value ht) (begins_value ht') heq
    have hc' : c' = ',' ∨ c' = ']' ∨ c' = '}' := hnext.elim (fun h => .inr (.inl h.1)) fun h => .inl h.1
    obtain ⟨rfl, rfl, rfl⟩ := ih.marked ht' hws1 hws1' (.inr (.inl rfl)) hc'
    rcases hnext with ⟨-, rfl, rfl⟩ | ⟨hcomma, -⟩
    · exact ⟨rfl, rfl⟩
    · exact absurd hcomma (by decide)
  | @element t ts ws ws1 s tail rest hws ht hws1 hts ih ihs =>
    intro ts' rest' h'
    obtain ⟨t', more', ws', s', ws1', c', tail', rfl, heq, hws', hws1', ht', hnext⟩ := elements_value h'
    obtain rfl := blank_split hws hws' (begins_value ht) (begins_value ht') heq
    have hc' : c' = ',' ∨ c' = ']' ∨ c' = '}' := hnext.elim (fun h => .inr (.inl h.1)) fun h => .inl h.1
    obtain ⟨rfl, rfl, rfl⟩ := ih.marked ht' hws1 hws1' (.inl rfl) hc'
    rcases hnext with ⟨hclose, -⟩ | ⟨-, hmore⟩
    · exact absurd hclose (by decide)
    · obtain ⟨rfl, hsame⟩ := ihs more' rest' hmore
      exact ⟨rfl, hsame⟩
  | @lastMember k t ws ws1 ws2 ws3 s rest hws hk hws1 hws2 ht hws3 ih =>
    intro ms' rest' h'
    obtain ⟨k', t', more', ws', ws1', ws2', s', ws3', c', tail', rfl, heq, ⟨hws', hws1', hws2', hws3', hk'⟩, ht',
      hnext⟩ := members_value h'
    obtain ⟨rfl, rfl⟩ := member_split hws hws' hws1 hws1' hws2 hws2' hk hk' ht ht' heq
    have hc' : c' = ',' ∨ c' = ']' ∨ c' = '}' := hnext.elim (fun h => .inr (.inr h.1)) fun h => .inl h.1
    obtain ⟨rfl, rfl, rfl⟩ := ih.marked ht' hws3 hws3' (.inr (.inr rfl)) hc'
    rcases hnext with ⟨-, rfl, rfl⟩ | ⟨hcomma, -⟩
    · exact ⟨rfl, rfl⟩
    · exact absurd hcomma (by decide)
  | @member k t ms ws ws1 ws2 ws3 s tail rest hws hk hws1 hws2 ht hws3 hms ih ihs =>
    intro ms' rest' h'
    obtain ⟨k', t', more', ws', ws1', ws2', s', ws3', c', tail', rfl, heq, ⟨hws', hws1', hws2', hws3', hk'⟩, ht',
      hnext⟩ := members_value h'
    obtain ⟨rfl, rfl⟩ := member_split hws hws' hws1 hws1' hws2 hws2' hk hk' ht ht' heq
    have hc' : c' = ',' ∨ c' = ']' ∨ c' = '}' := hnext.elim (fun h => .inr (.inr h.1)) fun h => .inl h.1
    obtain ⟨rfl, rfl, rfl⟩ := ih.marked ht' hws3 hws3' (.inl rfl) hc'
    rcases hnext with ⟨hclose, -⟩ | ⟨-, hmore⟩
    · exact absurd hclose (by decide)
    · obtain ⟨rfl, hsame⟩ := ihs more' rest' hmore
      exact ⟨rfl, hsame⟩

theorem text_unique {s : List Char} (h : Text s t) (h' : Text s t') : t = t' := by
  obtain ⟨ws, s₁, ws₁, rfl, hws, ht, hws₁⟩ := h
  obtain ⟨ws', s₁', ws₁', heq, hws', ht', hws₁'⟩ := h'
  obtain rfl := blank_split hws hws' (begins_value ht) (begins_value ht') heq
  exact (determined_of_derives ht t' _ ht' (stops_blank hws₁) (stops_blank hws₁')).1

theorem denotes_unique {s : List Char} {v v' : Node (List ℕ)} (h : Denotes s v) (h' : Denotes s v') : v = v' := by
  obtain ⟨t, ht, rfl⟩ := h
  obtain ⟨t', ht', rfl⟩ := h'
  rw [text_unique ht ht']

end Neutron.Json
