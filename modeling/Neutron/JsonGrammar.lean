import Mathlib.Data.List.Basic
import Mathlib.Tactic.Common

/-!
# JSON texts

The grammar of RFC 8259 over characters. A derivation reads a value off the front of a text and leaves the
rest. Strings are kept as the pieces they are written with; the value a text denotes has the UTF-16 units of
each string in the place of its pieces, numbers as they are written, and members in order.
-/

namespace Neutron.Json

inductive Escape where
  | quote | backslash | slash | b | f | n | r | t
  deriving DecidableEq

def Escape.letter : Escape → Char
  | .quote => '"' | .backslash => '\\' | .slash => '/' | .b => 'b' | .f => 'f' | .n => 'n' | .r => 'r' | .t => 't'

def Escape.char : Escape → Char
  | .quote => '"' | .backslash => '\\' | .slash => '/' | .b => '\x08' | .f => '\x0c' | .n => '\n' | .r => '\r'
  | .t => '\t'

/-- What a string is written with. -/
inductive Piece where
  | plain (c : Char)
  | escape (e : Escape)
  | unicode (h1 h2 h3 h4 : Char)

/-- A character that may stand unescaped. -/
def Unescaped (c : Char) : Prop := 0x20 ≤ c.toNat ∧ c ≠ '"' ∧ c ≠ '\\'

instance (c : Char) : Decidable (Unescaped c) := inferInstanceAs (Decidable (_ ∧ _ ∧ _))

def IsHex (c : Char) : Prop := c.isDigit ∨ ('a' ≤ c ∧ c ≤ 'f') ∨ ('A' ≤ c ∧ c ≤ 'F')

instance (c : Char) : Decidable (IsHex c) := inferInstanceAs (Decidable (_ ∨ _))

def hexValue (c : Char) : ℕ :=
  if c.isDigit then c.toNat - 48 else if 'a' ≤ c ∧ c ≤ 'f' then c.toNat - 87 else c.toNat - 55

/-- The UTF-16 code units of a character. -/
def utf16 (c : Char) : List ℕ :=
  if c.toNat < 0x10000 then [c.toNat]
  else [0xD800 + (c.toNat - 0x10000) / 0x400, 0xDC00 + (c.toNat - 0x10000) % 0x400]

def Piece.text : Piece → List Char
  | .plain c => [c]
  | .escape e => ['\\', e.letter]
  | .unicode h1 h2 h3 h4 => ['\\', 'u', h1, h2, h3, h4]

def Piece.Ok : Piece → Prop
  | .plain c => Unescaped c
  | .escape _ => True
  | .unicode h1 h2 h3 h4 => IsHex h1 ∧ IsHex h2 ∧ IsHex h3 ∧ IsHex h4

def Piece.units : Piece → List ℕ
  | .plain c => utf16 c
  | .escape e => utf16 e.char
  | .unicode h1 h2 h3 h4 => [4096 * hexValue h1 + 256 * hexValue h2 + 16 * hexValue h3 + hexValue h4]

def text (ps : List Piece) : List Char := ps.flatMap Piece.text

def units (ps : List Piece) : List ℕ := ps.flatMap Piece.units

/-- What is evaluated for every character of a word holds of them all. -/
theorem forall_of_all {P : Char → Prop} [DecidablePred P] {s : List Char} (h : s.all (fun c => decide (P c)) = true) :
    ∀ c ∈ s, P c := fun c hc => of_decide_eq_true (List.all_eq_true.mp h c hc)

theorem text_cons (p : Piece) (ps : List Piece) : text (p :: ps) = p.text ++ text ps := List.flatMap_cons

theorem units_cons (p : Piece) (ps : List Piece) : units (p :: ps) = p.units ++ units ps := List.flatMap_cons

theorem text_append (ps qs : List Piece) : text (ps ++ qs) = text ps ++ text qs := List.flatMap_append

theorem units_append (ps qs : List Piece) : units (ps ++ qs) = units ps ++ units qs := List.flatMap_append

theorem plain_ok {name : List Char} (h : ∀ c ∈ name, Unescaped c) : ∀ p ∈ name.map Piece.plain, p.Ok := by
  intro p hp
  obtain ⟨c, hc, rfl⟩ := List.mem_map.mp hp
  exact h c hc

theorem isHex_ne {c : Char} (h : IsHex c) : c ≠ '"' ∧ c ≠ '\\' := by
  constructor
  · rintro rfl
    exact absurd h (by decide)
  · rintro rfl
    exact absurd h (by decide)

theorem Piece.text_ne_quote {p : Piece} (hok : p.Ok) (s t : List Char) : p.text ++ s ≠ '"' :: t := by
  intro h
  cases p with
  | plain c => exact hok.2.1 (List.cons.inj h).1
  | escape e => exact absurd (List.cons.inj h).1 (by decide)
  | unicode => exact absurd (List.cons.inj h).1 (by decide)

/-- A string as it stands in a text. -/
def quoted (s : List Char) : List Char := '"' :: (s ++ ['"'])

/-! ## Values -/

mutual

inductive Node (σ : Type) where
  | null
  | bool (b : Bool)
  | num (digits : List Char)
  | str (s : σ)
  | arr (ts : Nodes σ)
  | obj (ms : Members σ)

inductive Nodes (σ : Type) where
  | nil
  | cons (t : Node σ) (ts : Nodes σ)

inductive Members (σ : Type) where
  | nil
  | cons (k : σ) (t : Node σ) (ms : Members σ)

end

variable {σ τ : Type}

mutual

def Node.map (f : σ → τ) : Node σ → Node τ
  | .null => .null
  | .bool b => .bool b
  | .num digits => .num digits
  | .str s => .str (f s)
  | .arr ts => .arr (ts.map f)
  | .obj ms => .obj (ms.map f)

def Nodes.map (f : σ → τ) : Nodes σ → Nodes τ
  | .nil => .nil
  | .cons t ts => .cons (t.map f) (ts.map f)

def Members.map (f : σ → τ) : Members σ → Members τ
  | .nil => .nil
  | .cons k t ms => .cons (f k) (t.map f) (ms.map f)

end

mutual

/-- The compact text of a value, with strings written by `f`. -/
def Node.render (f : σ → List Char) : Node σ → List Char
  | .null => ['n', 'u', 'l', 'l']
  | .bool true => ['t', 'r', 'u', 'e']
  | .bool false => ['f', 'a', 'l', 's', 'e']
  | .num digits => digits
  | .str s => f s
  | .arr ts => '[' :: (List.intercalate [','] (ts.renders f) ++ [']'])
  | .obj ms => '{' :: (List.intercalate [','] (ms.renders f) ++ ['}'])

def Nodes.renders (f : σ → List Char) : Nodes σ → List (List Char)
  | .nil => []
  | .cons t ts => t.render f :: ts.renders f

def Members.renders (f : σ → List Char) : Members σ → List (List Char)
  | .nil => []
  | .cons k t ms => (f k ++ ':' :: t.render f) :: ms.renders f

end

mutual

/-- Every string, keys included, satisfies `P`, and every number `N`. -/
def Node.All (P : σ → Prop) (N : List Char → Prop) : Node σ → Prop
  | .null | .bool _ => True
  | .num digits => N digits
  | .str s => P s
  | .arr ts => ts.All P N
  | .obj ms => ms.All P N

def Nodes.All (P : σ → Prop) (N : List Char → Prop) : Nodes σ → Prop
  | .nil => True
  | .cons t ts => t.All P N ∧ ts.All P N

def Members.All (P : σ → Prop) (N : List Char → Prop) : Members σ → Prop
  | .nil => True
  | .cons k t ms => P k ∧ t.All P N ∧ ms.All P N

end

def Nodes.ofList : List (Node σ) → Nodes σ
  | [] => .nil
  | t :: ts => .cons t (.ofList ts)

def Members.ofList : List (σ × Node σ) → Members σ
  | [] => .nil
  | (k, t) :: ms => .cons k t (.ofList ms)

theorem renders_nodes (f : σ → List Char) (ts : List (Node σ)) :
    (Nodes.ofList ts).renders f = ts.map fun t => t.render f := by
  induction ts with
  | nil => rfl
  | cons t ts ih => rw [Nodes.ofList, Nodes.renders, ih, List.map_cons]

theorem renders_members (f : σ → List Char) (ms : List (σ × Node σ)) :
    (Members.ofList ms).renders f = ms.map fun m => f m.1 ++ ':' :: m.2.render f := by
  induction ms with
  | nil => rfl
  | cons m ms ih => rw [Members.ofList, Members.renders, ih, List.map_cons]

/-! ## Grammar -/

def IsWs (c : Char) : Prop := c = ' ' ∨ c = '\t' ∨ c = '\n' ∨ c = '\r'

def Blank (s : List Char) : Prop := ∀ c ∈ s, IsWs c

theorem blank_nil : Blank [] := fun _ hc => absurd hc List.not_mem_nil

def Digits (s : List Char) : Prop := s ≠ [] ∧ ∀ c ∈ s, c.isDigit

/-- `number = [ minus ] int [ frac ] [ exp ]` -/
inductive IsNumber : List Char → Prop
  | intro (sign int frac exp : List Char) (hsign : sign = [] ∨ sign = ['-'])
      (hint : int = ['0'] ∨ Digits int ∧ int.head? ≠ some '0')
      (hfrac : frac = [] ∨ ∃ ds, frac = '.' :: ds ∧ Digits ds)
      (hexp : exp = [] ∨ ∃ e s ds, exp = e :: (s ++ ds) ∧ (e = 'e' ∨ e = 'E') ∧ (s = [] ∨ s = ['+'] ∨ s = ['-']) ∧
        Digits ds) : IsNumber (sign ++ int ++ frac ++ exp)

theorem isNumber_one : IsNumber ['1'] := by
  have hdigits : Digits ['1'] := ⟨List.cons_ne_nil _ _, fun c hc => by rw [List.mem_singleton.mp hc]; rfl⟩
  exact .intro [] ['1'] [] [] (.inl rfl) (.inr ⟨hdigits, by simp⟩) (.inl rfl) (.inl rfl)

inductive Goal where
  | value (t : Node (List Piece))
  | elements (ts : Nodes (List Piece))
  | members (ms : Members (List Piece))

/-- `Derives g s rest`: `g` is read off the front of `s` and `rest` is left. Elements and members are read
up to and including the closing bracket. -/
inductive Derives : Goal → List Char → List Char → Prop
  | null (rest) : Derives (.value .null) (['n', 'u', 'l', 'l'] ++ rest) rest
  | true (rest) : Derives (.value (.bool true)) (['t', 'r', 'u', 'e'] ++ rest) rest
  | false (rest) : Derives (.value (.bool false)) (['f', 'a', 'l', 's', 'e'] ++ rest) rest
  | num {digits} (rest) (h : IsNumber digits) : Derives (.value (.num digits)) (digits ++ rest) rest
  | str {ps} (rest) (h : ∀ p ∈ ps, p.Ok) : Derives (.value (.str ps)) (quoted (text ps) ++ rest) rest
  | emptyArr {ws} (rest) (h : Blank ws) : Derives (.value (.arr .nil)) ('[' :: (ws ++ ']' :: rest)) rest
  | arr {ts s rest} (h : Derives (.elements ts) s rest) : Derives (.value (.arr ts)) ('[' :: s) rest
  | emptyObj {ws} (rest) (h : Blank ws) : Derives (.value (.obj .nil)) ('{' :: (ws ++ '}' :: rest)) rest
  | obj {ms s rest} (h : Derives (.members ms) s rest) : Derives (.value (.obj ms)) ('{' :: s) rest
  | lastElement {t ws ws' s} (rest) (hws : Blank ws) (ht : Derives (.value t) s (ws' ++ ']' :: rest)) (hws' : Blank ws') :
      Derives (.elements (.cons t .nil)) (ws ++ s) rest
  | element {t ts ws ws' s s' rest} (hws : Blank ws) (ht : Derives (.value t) s (ws' ++ ',' :: s')) (hws' : Blank ws')
      (hts : Derives (.elements ts) s' rest) : Derives (.elements (.cons t ts)) (ws ++ s) rest
  | lastMember {k t ws ws1 ws2 ws' s} (rest) (hws : Blank ws) (hk : ∀ p ∈ k, p.Ok) (hws1 : Blank ws1)
      (hws2 : Blank ws2) (ht : Derives (.value t) s (ws' ++ '}' :: rest)) (hws' : Blank ws') :
      Derives (.members (.cons k t .nil)) (ws ++ (quoted (text k) ++ (ws1 ++ ':' :: (ws2 ++ s)))) rest
  | member {k t ms ws ws1 ws2 ws' s s' rest} (hws : Blank ws) (hk : ∀ p ∈ k, p.Ok) (hws1 : Blank ws1)
      (hws2 : Blank ws2) (ht : Derives (.value t) s (ws' ++ ',' :: s')) (hws' : Blank ws')
      (hms : Derives (.members ms) s' rest) :
      Derives (.members (.cons k t ms)) (ws ++ (quoted (text k) ++ (ws1 ++ ':' :: (ws2 ++ s)))) rest

/-- `JSON-text = ws value ws` -/
def Text (s : List Char) (t : Node (List Piece)) : Prop :=
  ∃ ws s' ws', s = ws ++ s' ∧ Blank ws ∧ Derives (.value t) s' ws' ∧ Blank ws'

def IsJson (s : List Char) : Prop := ∃ t, Text s t

/-- The value a tree stands for. -/
def Node.value (t : Node (List Piece)) : Node (List ℕ) := t.map units

def Denotes (s : List Char) (v : Node (List ℕ)) : Prop := ∃ t, Text s t ∧ t.value = v

/-! ## Compact texts -/

def WellFormed (t : Node (List Piece)) : Prop := t.All (fun ps => ∀ p ∈ ps, p.Ok) IsNumber

/-- A value as it is written without whitespace. -/
def compact (t : Node (List Piece)) : List Char := t.render fun ps => quoted (text ps)

mutual

theorem Node.render_map {P : σ → Prop} {N : List Char → Prop} {f : σ → List Char} {g : τ → List Char} {h : σ → τ}
    (hP : ∀ s, P s → g (h s) = f s) : ∀ t : Node σ, t.All P N → (t.map h).render g = t.render f
  | .null, _ => rfl
  | .bool true, _ => rfl
  | .bool false, _ => rfl
  | .num _, _ => rfl
  | .str s, hs => hP s hs
  | .arr ts, hts => by rw [Node.map, Node.render, Node.render, Nodes.renders_map hP ts hts]
  | .obj ms, hms => by rw [Node.map, Node.render, Node.render, Members.renders_map hP ms hms]

theorem Nodes.renders_map {P : σ → Prop} {N : List Char → Prop} {f : σ → List Char} {g : τ → List Char} {h : σ → τ}
    (hP : ∀ s, P s → g (h s) = f s) : ∀ ts : Nodes σ, ts.All P N → (ts.map h).renders g = ts.renders f
  | .nil, _ => rfl
  | .cons t ts, ⟨ht, hts⟩ => by
    rw [Nodes.map, Nodes.renders, Nodes.renders, Node.render_map hP t ht, Nodes.renders_map hP ts hts]

theorem Members.renders_map {P : σ → Prop} {N : List Char → Prop} {f : σ → List Char} {g : τ → List Char} {h : σ → τ}
    (hP : ∀ s, P s → g (h s) = f s) : ∀ ms : Members σ, ms.All P N → (ms.map h).renders g = ms.renders f
  | .nil, _ => rfl
  | .cons k t ms, ⟨hk, ht, hms⟩ => by
    rw [Members.map, Members.renders, Members.renders, hP k hk, Node.render_map hP t ht, Members.renders_map hP ms hms]

end

mutual

theorem Node.map_map {υ : Type} {P : σ → Prop} {N : List Char → Prop} {f : σ → υ} {g : τ → υ} {h : σ → τ}
    (hP : ∀ s, P s → g (h s) = f s) : ∀ t : Node σ, t.All P N → (t.map h).map g = t.map f
  | .null, _ | .bool _, _ | .num _, _ => rfl
  | .str s, hs => congrArg Node.str (hP s hs)
  | .arr ts, hts => congrArg Node.arr (Nodes.map_map hP ts hts)
  | .obj ms, hms => congrArg Node.obj (Members.map_map hP ms hms)

theorem Nodes.map_map {υ : Type} {P : σ → Prop} {N : List Char → Prop} {f : σ → υ} {g : τ → υ} {h : σ → τ}
    (hP : ∀ s, P s → g (h s) = f s) : ∀ ts : Nodes σ, ts.All P N → (ts.map h).map g = ts.map f
  | .nil, _ => rfl
  | .cons t ts, ⟨ht, hts⟩ => by
    rw [Nodes.map, Nodes.map, Nodes.map, Node.map_map hP t ht, Nodes.map_map hP ts hts]

theorem Members.map_map {υ : Type} {P : σ → Prop} {N : List Char → Prop} {f : σ → υ} {g : τ → υ} {h : σ → τ}
    (hP : ∀ s, P s → g (h s) = f s) : ∀ ms : Members σ, ms.All P N → (ms.map h).map g = ms.map f
  | .nil, _ => rfl
  | .cons k t ms, ⟨hk, ht, hms⟩ => by
    rw [Members.map, Members.map, Members.map, hP k hk, Node.map_map hP t ht, Members.map_map hP ms hms]

end

mutual

theorem Node.all_map {P : σ → Prop} {R : τ → Prop} {N : List Char → Prop} {f : σ → τ} (hR : ∀ s, P s → R (f s)) :
    ∀ t : Node σ, t.All P N → (t.map f).All R N
  | .null, _ | .bool _, _ => trivial
  | .num _, hn => hn
  | .str s, hs => hR s hs
  | .arr ts, hts => Nodes.all_map hR ts hts
  | .obj ms, hms => Members.all_map hR ms hms

theorem Nodes.all_map {P : σ → Prop} {R : τ → Prop} {N : List Char → Prop} {f : σ → τ} (hR : ∀ s, P s → R (f s)) :
    ∀ ts : Nodes σ, ts.All P N → (ts.map f).All R N
  | .nil, _ => trivial
  | .cons t ts, ⟨ht, hts⟩ => ⟨Node.all_map hR t ht, Nodes.all_map hR ts hts⟩

theorem Members.all_map {P : σ → Prop} {R : τ → Prop} {N : List Char → Prop} {f : σ → τ} (hR : ∀ s, P s → R (f s)) :
    ∀ ms : Members σ, ms.All P N → (ms.map f).All R N
  | .nil, _ => trivial
  | .cons k t ms, ⟨hk, ht, hms⟩ => ⟨hR k hk, Node.all_map hR t ht, Members.all_map hR ms hms⟩

end

mutual

theorem Node.all_of_both {P Q R : σ → Prop} {N M : List Char → Prop} (hR : ∀ s, P s → Q s → R s) :
    ∀ t : Node σ, t.All P M → t.All Q N → t.All R N
  | .null, _, _ | .bool _, _, _ => trivial
  | .num _, _, hn => hn
  | .str s, hP, hQ => hR s hP hQ
  | .arr ts, hts, hts' => Nodes.all_of_both hR ts hts hts'
  | .obj ms, hms, hms' => Members.all_of_both hR ms hms hms'

theorem Nodes.all_of_both {P Q R : σ → Prop} {N M : List Char → Prop} (hR : ∀ s, P s → Q s → R s) :
    ∀ ts : Nodes σ, ts.All P M → ts.All Q N → ts.All R N
  | .nil, _, _ => trivial
  | .cons t ts, ⟨ht, hts⟩, ⟨ht', hts'⟩ => ⟨Node.all_of_both hR t ht ht', Nodes.all_of_both hR ts hts hts'⟩

theorem Members.all_of_both {P Q R : σ → Prop} {N M : List Char → Prop} (hR : ∀ s, P s → Q s → R s) :
    ∀ ms : Members σ, ms.All P M → ms.All Q N → ms.All R N
  | .nil, _, _ => trivial
  | .cons k t ms, ⟨hk, ht, hms⟩, ⟨hk', ht', hms'⟩ =>
    ⟨hR k hk hk', Node.all_of_both hR t ht ht', Members.all_of_both hR ms hms hms'⟩

end

/-- Strings and numbers of what is derived are well formed. -/
def Goal.WellFormed : Goal → Prop
  | .value t => t.All (fun ps => ∀ p ∈ ps, p.Ok) IsNumber
  | .elements ts => ts.All (fun ps => ∀ p ∈ ps, p.Ok) IsNumber
  | .members ms => ms.All (fun ps => ∀ p ∈ ps, p.Ok) IsNumber

theorem wellFormed_of_derives {g : Goal} {s rest : List Char} (h : Derives g s rest) : g.WellFormed := by
  induction h with
  | null => trivial
  | true => trivial
  | false => trivial
  | num _ h => exact h
  | str _ h => exact h
  | emptyArr => trivial
  | arr _ ih => exact ih
  | emptyObj => trivial
  | obj _ ih => exact ih
  | lastElement _ _ _ _ ih => exact ⟨ih, trivial⟩
  | element _ _ _ _ iht ihts => exact ⟨iht, ihts⟩
  | lastMember _ _ hk _ _ _ _ ih => exact ⟨hk, ih, trivial⟩
  | member _ hk _ _ _ _ _ iht ihms => exact ⟨hk, iht, ihms⟩

mutual

/-- A well formed value is derived from its compact text. -/
theorem derives_compact : ∀ (t : Node (List Piece)) (rest : List Char), WellFormed t →
    Derives (.value t) (compact t ++ rest) rest
  | .null, rest, _ => .null rest
  | .bool true, rest, _ => .true rest
  | .bool false, rest, _ => .false rest
  | .num _, rest, h => .num rest h
  | .str _, rest, h => .str rest h
  | .arr .nil, rest, _ => .emptyArr rest blank_nil
  | .arr (.cons t ts), rest, hts => by
    have helements := derives_elements (.cons t ts) rest hts (by simp)
    rw [compact, Node.render, List.cons_append, List.append_assoc]
    exact .arr helements
  | .obj .nil, rest, _ => .emptyObj rest blank_nil
  | .obj (.cons k t ms), rest, hms => by
    have hmembers := derives_members (.cons k t ms) rest hms (by simp)
    rw [compact, Node.render, List.cons_append, List.append_assoc]
    exact .obj hmembers

theorem derives_elements : ∀ (ts : Nodes (List Piece)) (rest : List Char),
    ts.All (fun ps => ∀ p ∈ ps, p.Ok) IsNumber → ts ≠ .nil → Derives (.elements ts)
      (List.intercalate [','] (ts.renders fun ps => quoted (text ps)) ++ ']' :: rest) rest
  | .nil, _, _, hne => absurd rfl hne
  | .cons t .nil, rest, ⟨ht, _⟩, _ => by
    rw [Nodes.renders, Nodes.renders, List.intercalate_singleton]
    exact @Derives.lastElement t [] [] _ rest blank_nil (derives_compact t _ ht) blank_nil
  | .cons t (.cons t' ts), rest, ⟨ht, hts⟩, _ => by
    have helements := derives_elements (.cons t' ts) rest hts (by simp)
    rw [Nodes.renders, Nodes.renders, List.intercalate_cons_cons, List.append_assoc, List.append_assoc]
    exact @Derives.element t _ [] [] _ _ rest blank_nil (derives_compact t _ ht) blank_nil helements

theorem derives_members : ∀ (ms : Members (List Piece)) (rest : List Char),
    ms.All (fun ps => ∀ p ∈ ps, p.Ok) IsNumber → ms ≠ .nil → Derives (.members ms)
      (List.intercalate [','] (ms.renders fun ps => quoted (text ps)) ++ '}' :: rest) rest
  | .nil, _, _, hne => absurd rfl hne
  | .cons k t .nil, rest, ⟨hk, ht, _⟩, _ => by
    rw [Members.renders, Members.renders, List.intercalate_singleton, List.append_assoc]
    exact @Derives.lastMember k t [] [] [] [] _ rest blank_nil hk blank_nil blank_nil (derives_compact t _ ht) blank_nil
  | .cons k t (.cons k' t' ms), rest, ⟨hk, ht, hms⟩, _ => by
    have hmembers := derives_members (.cons k' t' ms) rest hms (by simp)
    rw [Members.renders, Members.renders, List.intercalate_cons_cons, List.append_assoc, List.append_assoc,
      List.append_assoc]
    exact @Derives.member k t _ [] [] [] [] _ _ rest blank_nil hk blank_nil blank_nil (derives_compact t _ ht) blank_nil
      hmembers

end

theorem text_compact {t : Node (List Piece)} (h : WellFormed t) : Text (compact t) t := by
  have hderives := derives_compact t [] h
  rw [List.append_nil] at hderives
  exact ⟨[], compact t, [], rfl, blank_nil, hderives, blank_nil⟩

/-! ## Texts put together -/

/-- What may stand between the quotes of a string. -/
def IsStringText (s : List Char) : Prop := ∃ ps : List Piece, (∀ p ∈ ps, p.Ok) ∧ text ps = s

theorem isStringText_piece {p : Piece} (h : p.Ok) : IsStringText p.text :=
  ⟨[p], fun _ hq => List.mem_singleton.mp hq ▸ h, List.append_nil _⟩

theorem isStringText_flatMap {α : Type} {f : α → List Char} {l : List α} (h : ∀ x ∈ l, IsStringText (f x)) :
    IsStringText (l.flatMap f) := by
  induction l with
  | nil => exact ⟨[], fun p hp => absurd hp List.not_mem_nil, rfl⟩
  | cons x l ih =>
    obtain ⟨ps, hps, htext⟩ := h x List.mem_cons_self
    obtain ⟨qs, hqs, hrest⟩ := ih fun y hy => h y (List.mem_cons_of_mem _ hy)
    refine ⟨ps ++ qs, fun p hp => (List.mem_append.mp hp).elim (hps p) (hqs p), ?_⟩
    rw [List.flatMap_cons, ← htext, ← hrest]
    exact List.flatMap_append

theorem isJson_render {t : Node (List Char)} (h : t.All IsStringText IsNumber) : IsJson (t.render quoted) := by
  classical
  let pieces : List Char → List Piece := fun s => if hs : IsStringText s then hs.choose else []
  have hpieces : ∀ s, IsStringText s → (∀ p ∈ pieces s, p.Ok) ∧ text (pieces s) = s := by
    intro s hs
    rw [show pieces s = hs.choose from dif_pos hs]
    exact hs.choose_spec
  have hcompact : compact (t.map pieces) = t.render quoted :=
    Node.render_map (fun s hs => by rw [(hpieces s hs).2]) t h
  rw [← hcompact]
  exact ⟨_, text_compact (Node.all_map (fun s hs => (hpieces s hs).1) t h)⟩

theorem head_toDigits (n : ℕ) : Nat.toDigits 10 n = ['0'] ∨ (Nat.toDigits 10 n).head? ≠ some '0' := by
  induction n using Nat.strongRecOn with
  | _ n ih =>
    by_cases hn : n < 10
    · have hdigit : ∀ m < 10, [m.digitChar] = ['0'] ∨ [m.digitChar].head? ≠ some '0' := by decide
      rw [Nat.toDigits_of_lt_base hn]
      exact hdigit n hn
    · rw [Nat.toDigits_of_base_le (by decide) (by omega)]
      rcases ih (n / 10) (by omega) with hzero | hhead
      · have hdigits := congrArg (fun ds => Nat.ofDigitChars 10 ds 0) hzero
        simp only [Nat.ofDigitChars_ten_toDigits] at hdigits
        exact absurd hdigits (by simp [Nat.ofDigitChars]; omega)
      · rw [List.head?_append_of_ne_nil _ Nat.toDigits_ne_nil]
        exact .inr hhead

theorem isNumber_int (n : Int) : IsNumber (toString n).toList := by
  have hint : ∀ m : ℕ, Nat.toDigits 10 m = ['0'] ∨ Digits (Nat.toDigits 10 m) ∧ (Nat.toDigits 10 m).head? ≠ some '0' :=
    fun m => (head_toDigits m).imp_right fun hhead =>
      ⟨⟨Nat.toDigits_ne_nil, fun c hc => Nat.isDigit_of_mem_toDigits (by decide) (by decide) hc⟩, hhead⟩
  rw [Int.toString_eq_repr, Int.repr_eq_if]
  split
  · have hnumber := IsNumber.intro [] _ [] [] (.inl rfl) (hint n.toNat) (.inl rfl) (.inl rfl)
    rwa [List.nil_append, List.append_nil, List.append_nil, ← Nat.toList_repr] at hnumber
  · have hnumber := IsNumber.intro ['-'] _ [] [] (.inr rfl) (hint (-n).toNat) (.inl rfl) (.inl rfl)
    rw [List.append_nil, List.append_nil, ← Nat.toList_repr] at hnumber
    rw [String.toList_append]
    exact hnumber

end Neutron.Json
