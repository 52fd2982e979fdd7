import Mathlib
import Neutron.JsonUnique
import Neutron.TomlDocument

/-!
# The writers of YAML and TOML texts

`yaml.stringify` and `toml.stringify` take a compact JSON text apart again, at the commas and colons of its top
level. The TOML reader gives JSON back for no object that has members, and the YAML reader throws for the
text of every array with elements.
-/

namespace Neutron.Yaml

open RuntimeText DocumentText Json
open Toml (trimQuotes)

def jsonToYamlValue (val : List Char) : List Char :=
  if Between '"' '"' val then
    let inner := inner val
    if ':' ∈ inner ∨ '#' ∈ inner ∨ inner.head? = some ' ' ∨ inner.getLast? = some ' ' then '"' :: (inner ++ ['"'])
    else inner
  else if val = ['n', 'u', 'l', 'l'] then ['n', 'u', 'l', 'l']
  else val

/-- The lines of a nested object. -/
def nestedLines (nestedInner : List Char) : List Char :=
  (splitFlowSequence nestedInner).flatMap fun ne =>
    match splitColon ne with
    | none => []
    | some (k, v) => "  ".toList ++ trimQuotes (trim k) ++ ": ".toList ++ jsonToYamlValue (trim v) ++ ['\n']

/-- One round of the loop of `ntsc_yaml_stringify`. -/
def entryLines (idx : ℕ) (entry : List Char) : List Char :=
  match splitColon entry with
  | none => []
  | some (k, v) =>
    let key := trimQuotes (trim k)
    let val := trim v
    let separator := if idx > 0 then ['\n'] else []
    if Between '{' '}' val then
      let nestedInner := trim (inner val)
      if nestedInner = [] then separator ++ key ++ ":\n".toList
      else separator ++ key ++ ":\n".toList ++ nestedLines nestedInner
    else if Between '[' ']' val then
      let arrInner := trim (inner val)
      let items := if arrInner = [] then [] else splitFlowSequence arrInner
      separator ++ key ++ ":\n".toList ++ items.flatMap fun item => "- ".toList ++ jsonToYamlValue item ++ ['\n']
    else separator ++ key ++ ": ".toList ++ jsonToYamlValue val ++ ['\n']

def ntscYamlStringify (s : List Char) : Except String (List Char) :=
  let json := trim s
  if json = [] ∨ json = ['{', '}'] then .ok []
  else if Between '[' ']' json then .error "yaml.stringify: top-level sequences are not supported"
  else if json.head? ≠ some '{' then .error "yaml.stringify: expected a JSON object"
  else
    let inner := trim (inner json)
    if inner = [] then .ok []
    else
      let entries := splitFlowSequence inner
      if entries = [] then .error "yaml.stringify: malformed JSON object"
      else .ok (entries.zipIdx.flatMap fun (entry, idx) => entryLines idx entry)

end Neutron.Yaml

namespace Neutron.Toml

open RuntimeText DocumentText Json
open JsonParser (Bytes ascii isAsciiWhitespace isAsciiDigit)
open Yaml (Between)

theorem infix_intercalate {sep l : List Char} {ls : List (List Char)} (h : l ∈ ls) : l <:+: List.intercalate sep ls := by
  induction ls with
  | nil => exact absurd h List.not_mem_nil
  | cons l' ls ih =>
    cases ls with
    | nil => rw [List.mem_singleton.mp h, List.intercalate_singleton]
    | cons l'' ls =>
      rw [List.intercalate_cons_cons, List.append_assoc]
      rcases List.mem_cons.mp h with rfl | h
      · exact (List.prefix_append _ _).isInfix
      · exact ((ih h).trans (List.suffix_append _ _).isInfix).trans (List.suffix_append _ _).isInfix

theorem length_item {val item : List Char} (h : Between '[' ']' val)
    (hitem : item ∈ (trim (Yaml.inner val)).splitOn ',') : (trim item).length < val.length := by
  have hitem' : item.length ≤ (trim (Yaml.inner val)).length := by
    have hinfix := @infix_intercalate [','] _ _ hitem
    rw [List.intercalate_splitOn] at hinfix
    exact hinfix.length_le
  have htrim := length_trim_le item
  have hinner := length_trim_le (Yaml.inner val)
  have hlong := h.2.2
  have hlength : (Yaml.inner val).length = val.length - 1 - 1 := by
    rw [Yaml.inner, List.length_dropLast, List.length_drop]
  omega

def jsonToTomlValue (val : List Char) : List Char :=
  if Between '"' '"' val ∨ val = ['t', 'r', 'u', 'e'] ∨ val = ['f', 'a', 'l', 's', 'e'] then val
  else if val = ['n', 'u', 'l', 'l'] then ['n', 'u', 'l', 'l']
  else if _h : Between '[' ']' val then
    if trim (Yaml.inner val) = [] then ['[', ']']
    else
      let formatted := ((trim (Yaml.inner val)).splitOn ',').attach.map fun item => jsonToTomlValue (trim item.1)
      '[' :: (List.intercalate [',', ' '] formatted ++ [']'])
  else val
termination_by val.length
decreasing_by exact length_item _h item.2

/-- The scan of `find_json_key_colon` in a string: the text up to the closing quote, and the rest. -/
def keyEnd : List Char → List Char × List Char
  | [] => ([], [])
  | '"' :: s => (['"'], s)
  | '\\' :: c :: s => ('\\' :: c :: (keyEnd s).1, (keyEnd s).2)
  | c :: s => (c :: (keyEnd s).1, (keyEnd s).2)

/-- `find_json_key_colon`, as the texts before and after the colon. -/
def findJsonKeyColon (entry : List Char) : Option (List Char × List Char) :=
  match entry.dropWhile (· ≠ '"') with
  | [] => none
  | quote :: s =>
    (splitColon (keyEnd s).2).map fun kv => (entry.takeWhile (· ≠ '"') ++ quote :: ((keyEnd s).1 ++ kv.1), kv.2)

/-- The key and the value of an entry. -/
def jsonField (entry : List Char) : Option (List Char × List Char) :=
  (findJsonKeyColon entry).map fun kv => (trimQuotes (trim kv.1), trim kv.2)

def jsonFields (s : List Char) : List (List Char × List Char) := (splitJsonEntries s).filterMap jsonField

def tomlLine (field : List Char × List Char) : List Char :=
  field.1 ++ " = ".toList ++ jsonToTomlValue field.2 ++ ['\n']

def sectionLines (field : List Char × List Char) : List Char :=
  "\n[".toList ++ field.1 ++ "]\n".toList ++ (jsonFields field.2).flatMap tomlLine

def IsSection (field : List Char × List Char) : Prop := field.2.head? = some '{'

instance (field : List Char × List Char) : Decidable (IsSection field) := inferInstanceAs (Decidable (_ = _))

def ntscTomlStringify (s : List Char) : Except String (List Char) :=
  let json := trim s
  if json = [] ∨ json = ['{', '}'] then .ok []
  else if json.head? ≠ some '{' then .error "toml.stringify: expected a JSON object"
  else
    let inner := trim (Yaml.inner json)
    if inner = [] then .ok []
    else
      let fields := jsonFields inner
      .ok ((fields.filter fun field => ¬IsSection field).flatMap tomlLine ++
        (fields.filter fun field => IsSection field).flatMap sectionLines)

/-! ## Taking a JSON text apart -/

/-- The text is passed over outside of strings, from any depth. -/
def Skips (v : List Char) : Prop :=
  ∀ current s depth, 0 ≤ depth → splitEntriesLoop ['"'] current depth false false (v ++ s) =
    splitEntriesLoop ['"'] (current ++ v) depth false false s

theorem skips_nil : Skips [] := by
  intro current s depth _
  rw [List.nil_append, List.append_nil]

theorem Skips.append {v w : List Char} (hv : Skips v) (hw : Skips w) : Skips (v ++ w) := by
  intro current s depth hdepth
  rw [List.append_assoc, hv _ _ _ hdepth, hw _ _ _ hdepth, List.append_assoc]

theorem skips_char {c : Char} (h : c ∉ ['"', '{', '[', '}', ']', ',']) : Skips [c] := by
  simp only [List.mem_cons, List.not_mem_nil, or_false, not_or] at h
  obtain ⟨hquote, hbrace, hbracket, hbrace', hbracket', hcomma⟩ := h
  intro current s depth _
  rw [List.singleton_append, splitEntriesLoop, if_neg Bool.false_ne_true, if_neg fun h => Bool.false_ne_true h.2,
    if_neg (by simpa using hquote), if_neg Bool.false_ne_true, if_neg fun h => h.elim hbrace hbracket,
    if_neg fun h => h.elim hbrace' hbracket', if_neg fun h => hcomma h.1]

theorem skips_chars {v : List Char} (h : ∀ c ∈ v, c ∉ ['"', '{', '[', '}', ']', ',']) : Skips v := by
  induction v with
  | nil => exact skips_nil
  | cons c v ih =>
    exact (skips_char (h c List.mem_cons_self)).append (ih fun d hd => h d (List.mem_cons_of_mem _ hd))

/-- Pieces of a string are passed over inside of it. -/
theorem splitEntriesLoop_text {ps : List Piece} (h : ∀ p ∈ ps, p.Ok) (current s : List Char) (depth : Int) :
    splitEntriesLoop ['"'] current depth true false (text ps ++ s) =
      splitEntriesLoop ['"'] (current ++ text ps) depth true false s := by
  induction ps generalizing current with
  | nil => rw [text, List.flatMap_nil, List.nil_append, List.append_nil]
  | cons p ps ih =>
    have hpiece : splitEntriesLoop ['"'] current depth true false (p.text ++ (text ps ++ s)) =
        splitEntriesLoop ['"'] (current ++ p.text) depth true false (text ps ++ s) := by
      cases p with
      | plain c =>
        have hc : Unescaped c := h _ List.mem_cons_self
        apply splitEntriesLoop_key
        intro d hd
        rw [List.mem_singleton.mp hd]
        exact hc.2
      | escape e =>
        rw [Piece.text, List.cons_append, splitEntriesLoop, if_neg Bool.false_ne_true, if_pos ⟨rfl, rfl⟩,
          List.cons_append,
          splitEntriesLoop, if_pos rfl, List.append_assoc]
        rfl
      | unicode h1 h2 h3 h4 =>
        obtain ⟨hh1, hh2, hh3, hh4⟩ : IsHex h1 ∧ IsHex h2 ∧ IsHex h3 ∧ IsHex h4 := h _ List.mem_cons_self
        have hhex : ∀ c ∈ [h1, h2, h3, h4], c ≠ '"' ∧ c ≠ '\\' := by
          intro c hc
          simp only [List.mem_cons, List.not_mem_nil, or_false] at hc
          rcases hc with rfl | rfl | rfl | rfl
          · exact isHex_ne hh1
          · exact isHex_ne hh2
          · exact isHex_ne hh3
          · exact isHex_ne hh4
        have hsplit : Piece.text (.unicode h1 h2 h3 h4) = '\\' :: 'u' :: [h1, h2, h3, h4] := rfl
        rw [hsplit, List.cons_append, splitEntriesLoop, if_neg Bool.false_ne_true, if_pos ⟨rfl, rfl⟩,
          List.cons_append,
          splitEntriesLoop, if_pos rfl, splitEntriesLoop_key hhex, List.append_assoc, List.append_assoc]
        rfl
    rw [text_cons, List.append_assoc, hpiece, ih fun q hq => h q (List.mem_cons_of_mem _ hq), List.append_assoc]

theorem skips_quoted {ps : List Piece} (h : ∀ p ∈ ps, p.Ok) : Skips (quoted (text ps)) := by
  intro current s depth _
  have hopen : ∀ more, splitEntriesLoop ['"'] current depth false false ('"' :: more) =
      splitEntriesLoop ['"'] (current ++ ['"']) depth true false more := fun _ => rfl
  have hclose : ∀ current, splitEntriesLoop ['"'] current depth true false ('"' :: s) =
      splitEntriesLoop ['"'] (current ++ ['"']) depth false false s := fun _ => rfl
  have htext : quoted (text ps) ++ s = '"' :: (text ps ++ '"' :: s) := by simp [quoted]
  have hcurrent : current ++ quoted (text ps) = current ++ ['"'] ++ text ps ++ ['"'] := by simp [quoted]
  rw [htext, hopen, splitEntriesLoop_text h, hclose, hcurrent]

theorem number_chars {digits : List Char} (h : IsNumber digits) :
    ∀ c ∈ digits, c.isDigit = true ∨ c ∈ ['.', 'e', 'E', '+', '-'] := by
  obtain ⟨sign, int, frac, exp, hsign, hint, hfrac, hexp⟩ := h
  intro c hc
  simp only [List.mem_append] at hc
  rcases hc with ((hc | hc) | hc) | hc
  · rcases hsign with rfl | rfl
    · exact absurd hc List.not_mem_nil
    · rw [List.mem_singleton.mp hc]
      exact .inr (by decide)
  · rcases hint with rfl | hint
    · rw [List.mem_singleton.mp hc]
      exact .inl rfl
    · exact .inl (hint.1.2 c hc)
  · rcases hfrac with rfl | ⟨ds, rfl, hds⟩
    · exact absurd hc List.not_mem_nil
    · rcases List.mem_cons.mp hc with rfl | hc
      · exact .inr (by decide)
      · exact .inl (hds.2 c hc)
  · rcases hexp with rfl | ⟨e, s, ds, rfl, he, hs, hds⟩
    · exact absurd hc List.not_mem_nil
    · rcases List.mem_cons.mp hc with rfl | hc
      · rcases he with rfl | rfl <;> exact .inr (by decide)
      · rcases List.mem_append.mp hc with hc | hc
        · rcases hs with rfl | rfl | rfl
          · exact absurd hc List.not_mem_nil
          · rw [List.mem_singleton.mp hc]
            exact .inr (by decide)
          · rw [List.mem_singleton.mp hc]
            exact .inr (by decide)
        · exact .inl (hds.2 c hc)

theorem number_plain {digits : List Char} (h : IsNumber digits) :
    ∀ c ∈ digits, c ∉ ['"', '{', '[', '}', ']', ','] := by
  intro c hc hmem
  simp only [List.mem_cons, List.not_mem_nil, or_false] at hmem
  rcases number_chars h c hc with hdigit | hsign
  · rcases hmem with rfl | rfl | rfl | rfl | rfl | rfl <;> exact absurd hdigit (by decide)
  · rcases hmem with rfl | rfl | rfl | rfl | rfl | rfl <;> exact absurd hsign (by decide)

/-- Between brackets commas are passed over too. -/
theorem skips_between {vs : List (List Char)} (h : ∀ v ∈ vs, Skips v) {first last : Char}
    (hfirst : first = '{' ∨ first = '[') (hlast : last = '}' ∨ last = ']') :
    Skips (first :: (List.intercalate [','] vs ++ [last])) := by
  have hinside : ∀ current s depth, 0 < depth →
      splitEntriesLoop ['"'] current depth false false (List.intercalate [','] vs ++ s) =
        splitEntriesLoop ['"'] (current ++ List.intercalate [','] vs) depth false false s := by
    induction vs with
    | nil =>
      intro current s depth _
      rw [List.intercalate_nil, List.nil_append, List.append_nil]
    | cons v vs ih =>
      intro current s depth hdepth
      have hv := h v List.mem_cons_self
      cases vs with
      | nil =>
        rw [List.intercalate_singleton]
        exact hv _ _ _ (Int.le_of_lt hdepth)
      | cons w vs =>
        have hcomma : ∀ current more, splitEntriesLoop ['"'] current depth false false (',' :: more) =
            splitEntriesLoop ['"'] (current ++ [',']) depth false false more := by
          intro current more
          rw [splitEntriesLoop, if_neg Bool.false_ne_true, if_neg (by simp), if_neg (by simp),
            if_neg Bool.false_ne_true, if_neg (by simp), if_neg (by simp), if_neg (by omega)]
        rw [List.intercalate_cons_cons, List.append_assoc, List.append_assoc, hv _ _ _ (Int.le_of_lt hdepth),
          List.singleton_append, hcomma, ih (fun x hx => h x (List.mem_cons_of_mem _ hx)) _ _ _ hdepth]
        simp only [List.append_assoc, List.singleton_append]
  intro current s depth hdepth
  have hopen : ∀ more, splitEntriesLoop ['"'] current depth false false (first :: more) =
      splitEntriesLoop ['"'] (current ++ [first]) (depth + 1) false false more := by
    intro more
    rcases hfirst with rfl | rfl <;> rfl
  have hclose : ∀ current, splitEntriesLoop ['"'] current (depth + 1) false false (last :: s) =
      splitEntriesLoop ['"'] (current ++ [last]) (depth + 1 - 1) false false s := by
    intro current
    rcases hlast with rfl | rfl <;> rfl
  have htext : first :: (List.intercalate [','] vs ++ [last]) ++ s =
      first :: (List.intercalate [','] vs ++ last :: s) := by
    simp
  rw [htext, hopen, hinside _ _ _ (by omega), hclose, Int.add_sub_cancel]
  simp only [List.append_assoc, List.cons_append, List.nil_append]

mutual

theorem skips_compact : ∀ t : Node (List Piece), WellFormed t → Skips (compact t)
  | .null, _ => skips_chars (by simp [compact, Node.render])
  | .bool true, _ => skips_chars (by simp [compact, Node.render])
  | .bool false, _ => skips_chars (by simp [compact, Node.render])
  | .num digits, h => skips_chars (number_plain h)
  | .str ps, h => skips_quoted h
  | .arr ts, h => skips_between (skips_elements ts h) (.inr rfl) (.inr rfl)
  | .obj ms, h => skips_between (skips_members ms h) (.inl rfl) (.inl rfl)

theorem skips_elements : ∀ ts : Nodes (List Piece), ts.All (fun ps => ∀ p ∈ ps, p.Ok) IsNumber →
    ∀ v ∈ ts.renders fun ps => quoted (text ps), Skips v
  | .nil, _ => fun _ hv => absurd hv List.not_mem_nil
  | .cons t ts, ⟨ht, hts⟩ => by
    intro v hv
    rcases List.mem_cons.mp hv with rfl | hv
    · exact skips_compact t ht
    · exact skips_elements ts hts v hv

theorem skips_members : ∀ ms : Members (List Piece), ms.All (fun ps => ∀ p ∈ ps, p.Ok) IsNumber →
    ∀ v ∈ ms.renders fun ps => quoted (text ps), Skips v
  | .nil, _ => fun _ hv => absurd hv List.not_mem_nil
  | .cons k t ms, ⟨hk, ht, hms⟩ => by
    intro v hv
    rcases List.mem_cons.mp hv with rfl | hv
    · exact (skips_quoted hk).append ((skips_char (by simp)).append (skips_compact t ht))
    · exact skips_members ms hms v hv

end

/-! ## Texts without blanks at their ends -/

/-- Trimming keeps the text, and there is something to it. -/
structure Solid (v : List Char) : Prop where
  first : ∃ c s, v = c :: s ∧ isWhitespace c = false
  last : ∃ s c, v = s ++ [c] ∧ isWhitespace c = false

theorem Solid.ne_nil {v : List Char} (h : Solid v) : v ≠ [] := by
  obtain ⟨c, s, rfl, -⟩ := h.first
  exact List.cons_ne_nil c s

theorem Solid.trim {v : List Char} (h : Solid v) : trim v = v := by
  have hstart : trimStart v = v := by
    obtain ⟨c, s, rfl, hc⟩ := h.first
    exact List.dropWhile_cons_of_neg (by rw [hc]; exact Bool.false_ne_true)
  rw [RuntimeText.trim, hstart]
  obtain ⟨s, c, rfl, hc⟩ := h.last
  exact List.rdropWhile_concat_neg _ _ _ (by rw [hc]; exact Bool.false_ne_true)

theorem Solid.append {v w : List Char} (hv : Solid v) (hw : Solid w) (m : List Char) : Solid (v ++ m ++ w) := by
  obtain ⟨c, s, rfl, hc⟩ := hv.first
  obtain ⟨s', c', rfl, hc'⟩ := hw.last
  exact ⟨⟨c, s ++ m ++ (s' ++ [c']), rfl, hc⟩, ⟨c :: s ++ m ++ s', c', by simp, hc'⟩⟩

theorem solid_marks {first last : Char} (hfirst : isWhitespace first = false) (hlast : isWhitespace last = false)
    (m : List Char) : Solid (first :: (m ++ [last])) :=
  ⟨⟨first, m ++ [last], rfl, hfirst⟩, ⟨first :: m, last, rfl, hlast⟩⟩

theorem solid_of_all {v : List Char} (hne : v ≠ []) (h : ∀ c ∈ v, isWhitespace c = false) : Solid v := by
  constructor
  · obtain ⟨c, s, rfl⟩ := List.exists_cons_of_ne_nil hne
    exact ⟨c, s, rfl, h c List.mem_cons_self⟩
  · exact ⟨v.dropLast, v.getLast hne, (List.dropLast_append_getLast hne).symm, h _ (List.getLast_mem hne)⟩

theorem solid_number {digits : List Char} (h : IsNumber digits) : Solid digits := by
  apply solid_of_all
  · obtain ⟨d, cs, hdigits, -⟩ := JsonParser.split_isNumber h
    rcases hdigits with rfl | rfl
    · exact List.cons_ne_nil _ _
    · exact List.cons_ne_nil _ _
  · intro c hc
    rcases number_chars h c hc with hdigit | hsign
    · have hbounds := JsonParser.isDigit_bounds hdigit
      rw [isWhitespace]
      simp
      omega
    · simp only [List.mem_cons, List.not_mem_nil, or_false] at hsign
      rcases hsign with rfl | rfl | rfl | rfl | rfl <;> rfl

theorem solid_compact {t : Node (List Piece)} (h : WellFormed t) : Solid (compact t) := by
  cases t with
  | null => exact solid_of_all (List.cons_ne_nil _ _) (by simp [compact, Node.render]; decide)
  | bool b => cases b <;> exact solid_of_all (List.cons_ne_nil _ _) (by simp [compact, Node.render]; decide)
  | num digits => exact solid_number h
  | str ps => exact solid_marks rfl rfl _
  | arr ts => exact solid_marks rfl rfl _
  | obj ms => exact solid_marks rfl rfl _

theorem solid_intercalate {vs : List (List Char)} (hne : vs ≠ []) (h : ∀ v ∈ vs, Solid v) :
    Solid (List.intercalate [','] vs) := by
  induction vs with
  | nil => exact absurd rfl hne
  | cons v vs ih =>
    cases vs with
    | nil =>
      rw [List.intercalate_singleton]
      exact h v List.mem_cons_self
    | cons w vs =>
      rw [List.intercalate_cons_cons]
      exact (h v List.mem_cons_self).append
        (ih (List.cons_ne_nil w vs) fun x hx => h x (List.mem_cons_of_mem _ hx)) [',']

theorem trim_inner {vs : List (List Char)} (hne : vs ≠ []) (h : ∀ v ∈ vs, Solid v) (first last : Char) :
    trim (Yaml.inner (first :: (List.intercalate [','] vs ++ [last]))) = List.intercalate [','] vs := by
  rw [Yaml.inner, List.drop_one, List.tail_cons, List.dropLast_concat, (solid_intercalate hne h).trim]

/-- Texts without outer commas are the entries of their list. -/
theorem splitJsonEntries_intercalate {vs : List (List Char)} (hskips : ∀ v ∈ vs, Skips v)
    (hsolid : ∀ v ∈ vs, Solid v) : splitJsonEntries (List.intercalate [','] vs) = vs := by
  have hfinished : ∀ v, Solid v → finished v = [v] := by
    intro v hv
    rw [finished, hv.trim, if_neg hv.ne_nil]
  induction vs with
  | nil => rfl
  | cons v vs ih =>
    have hv := hskips v List.mem_cons_self
    have hend := hfinished v (hsolid v List.mem_cons_self)
    rw [splitJsonEntries]
    cases vs with
    | nil =>
      have hall := hv [] [] 0 (Int.le_refl 0)
      rw [List.append_nil, List.nil_append] at hall
      rw [List.intercalate_singleton, hall]
      exact hend
    | cons w vs =>
      have hrest := ih (fun x hx => hskips x (List.mem_cons_of_mem _ hx))
        fun x hx => hsolid x (List.mem_cons_of_mem _ hx)
      have hcomma : ∀ more, splitEntriesLoop ['"'] v 0 false false (',' :: more) =
          finished v ++ splitEntriesLoop ['"'] [] 0 false false more := fun _ => rfl
      rw [List.intercalate_cons_cons, List.append_assoc, hv [] _ 0 (Int.le_refl 0), List.nil_append,
        List.singleton_append, hcomma, hend]
      exact congrArg (v :: ·) hrest

/-! ## The fields of an object -/

/-- The keys and values of an object, as they are written. -/
def memberFields : Members (List Piece) → List (List Char × List Char)
  | .nil => []
  | .cons k t ms => (text k, compact t) :: memberFields ms

def BareKeys (ms : Members (List Piece)) : Prop := ∀ field ∈ memberFields ms, Bare field.1

variable {key : List Char}

theorem keyEnd_bare (h : Bare key) (s : List Char) : keyEnd (key ++ '"' :: s) = (key ++ ['"'], s) := by
  induction key with
  | nil => rfl
  | cons c key ih =>
    obtain ⟨hquote, hbackslash, -⟩ := bare_spec h c List.mem_cons_self
    have hstep : keyEnd (c :: (key ++ '"' :: s)) =
        (c :: (keyEnd (key ++ '"' :: s)).1, (keyEnd (key ++ '"' :: s)).2) := by
      rw [keyEnd]
      · exact hquote
      · intro d s hc
        exact absurd hc hbackslash
    rw [List.cons_append, hstep, ih fun d hd => h d (List.mem_cons_of_mem _ hd)]
    rfl

theorem findJsonKeyColon_member (h : Bare key) (v : List Char) :
    findJsonKeyColon (quoted key ++ ':' :: v) = some (quoted key, v) := by
  have htext : quoted key ++ ':' :: v = '"' :: (key ++ '"' :: ':' :: v) := by simp [quoted]
  rw [htext, findJsonKeyColon, List.dropWhile_cons_of_neg (by decide), List.takeWhile_cons_of_neg (by decide)]
  dsimp only
  rw [keyEnd_bare h]
  simp [splitColon, quoted]

theorem trimQuotes_quoted (h : Bare key) : trimQuotes (quoted key) = key := by
  rw [trimQuotes, quoted, List.dropWhile_cons_of_pos (by decide)]
  cases key with
  | nil => rfl
  | cons c key =>
    have hquote : ∀ d ∈ c :: key, decide (d = '"') = false := fun d hd => decide_eq_false (bare_spec h d hd).1
    rw [List.cons_append, List.dropWhile_cons_of_neg (by rw [hquote c List.mem_cons_self]; exact Bool.false_ne_true),
      ← List.cons_append, List.rdropWhile_concat_pos _ _ _ (by decide)]
    exact List.rdropWhile_eq_self_iff.mpr fun hne => by
      rw [hquote _ (List.getLast_mem hne)]
      exact Bool.false_ne_true

theorem solid_members : ∀ ms : Members (List Piece), ms.All (fun ps => ∀ p ∈ ps, p.Ok) IsNumber →
    ∀ v ∈ ms.renders fun ps => quoted (text ps), Solid v
  | .nil, _ => fun _ hv => absurd hv List.not_mem_nil
  | .cons k t ms, ⟨_, ht, hms⟩ => by
    intro v hv
    rcases List.mem_cons.mp hv with rfl | hv
    · have hkey : Solid (quoted (text k)) := solid_marks rfl rfl _
      have hmember := hkey.append (solid_compact ht) [':']
      rwa [List.append_assoc] at hmember
    · exact solid_members ms hms v hv

theorem jsonField_member {k : List Piece} {t : Node (List Piece)} (hkey : Bare (text k)) (ht : WellFormed t) :
    jsonField (quoted (text k) ++ ':' :: compact t) = some (text k, compact t) := by
  have hsolid : Solid (quoted (text k)) := solid_marks rfl rfl _
  rw [jsonField, findJsonKeyColon_member hkey, Option.map_some, hsolid.trim, (solid_compact ht).trim,
    trimQuotes_quoted hkey]

theorem filterMap_members : ∀ ms : Members (List Piece), ms.All (fun ps => ∀ p ∈ ps, p.Ok) IsNumber → BareKeys ms →
    (ms.renders fun ps => quoted (text ps)).filterMap jsonField = memberFields ms
  | .nil, _, _ => rfl
  | .cons k t ms, ⟨_, ht, hms⟩, hkeys => by
    have hmember := jsonField_member (hkeys (text k, compact t) List.mem_cons_self) ht
    have hrest := filterMap_members ms hms fun field hfield => hkeys field (List.mem_cons_of_mem _ hfield)
    exact (List.filterMap_cons_some hmember).trans (congrArg (_ :: ·) hrest)

/-- The entries of an object are taken apart into its keys and values. -/
theorem jsonFields_members {ms : Members (List Piece)} (hwf : ms.All (fun ps => ∀ p ∈ ps, p.Ok) IsNumber)
    (hkeys : BareKeys ms) :
    jsonFields (List.intercalate [','] (ms.renders fun ps => quoted (text ps))) = memberFields ms := by
  rw [jsonFields, splitJsonEntries_intercalate (skips_members ms hwf) (solid_members ms hwf),
    filterMap_members ms hwf hkeys]

/-- The text written for an object with members. -/
theorem ntscTomlStringify_members {ms : Members (List Piece)} (hwf : WellFormed (.obj ms)) (hkeys : BareKeys ms)
    (hne : ms ≠ .nil) : ntscTomlStringify (compact (.obj ms)) =
      .ok (((memberFields ms).filter fun field => ¬IsSection field).flatMap tomlLine ++
        ((memberFields ms).filter fun field => IsSection field).flatMap sectionLines) := by
  have hrenders : (ms.renders fun ps => quoted (text ps)) ≠ [] := by
    cases ms with
    | nil => exact absurd rfl hne
    | cons k t ms => exact List.cons_ne_nil _ _
  have hmiddle := solid_intercalate hrenders (solid_members ms hwf)
  have hinner : trim (Yaml.inner (compact (.obj ms))) = _ := trim_inner hrenders (solid_members ms hwf) '{' '}'
  have hbraces : compact (.obj ms) ≠ ['{', '}'] := by
    intro h
    rw [h] at hinner
    exact hmiddle.ne_nil hinner.symm
  have hhead : (compact (.obj ms)).head? = some '{' := rfl
  rw [ntscTomlStringify, (solid_compact hwf).trim, hinner, hhead]
  dsimp only
  rw [if_neg fun h => h.elim (solid_compact hwf).ne_nil hbraces, if_neg fun h => h rfl, if_neg hmiddle.ne_nil,
    jsonFields_members hwf hkeys]

theorem rdropWhile_cons {p : Char → Bool} {c : Char} (hc : p c = false) (s : List Char) :
    ∃ s', (c :: s).rdropWhile p = c :: s' := by
  induction s using List.reverseRecOn with
  | nil => exact ⟨[], List.rdropWhile_concat_neg p [] c (by rw [hc]; exact Bool.false_ne_true)⟩
  | append_singleton s d ih =>
    rw [← List.cons_append]
    by_cases hd : p d = true
    · rw [List.rdropWhile_concat_pos p _ d hd]
      exact ih
    · rw [List.rdropWhile_concat_neg p _ d hd]
      exact ⟨s ++ [d], rfl⟩

/-- Below the header of a section there is nothing, or a line that begins with a brace. -/
theorem section_body {v : List Char} (hsplit : splitJsonEntries v = [v]) (hhead : v.head? = some '{') :
    (jsonFields v).flatMap tomlLine = [] ∨ ∃ s, (jsonFields v).flatMap tomlLine = '{' :: s := by
  obtain ⟨s, rfl⟩ : ∃ s, v = '{' :: s := by
    cases v with
    | nil => cases hhead
    | cons c s => exact ⟨s, congrArg (· :: s) (Option.some.inj hhead)⟩
  rw [jsonFields, hsplit]
  cases hfield : jsonField ('{' :: s) with
  | none =>
    rw [List.filterMap_cons_none hfield]
    exact .inl rfl
  | some field =>
    obtain ⟨kv, hkv, rfl⟩ := Option.map_eq_some_iff.mp hfield
    obtain ⟨before, hbefore⟩ : ∃ before, kv.1 = '{' :: before := by
      rw [findJsonKeyColon] at hkv
      split at hkv
      · cases hkv
      · obtain ⟨mid, -, rfl⟩ := Option.map_eq_some_iff.mp hkv
        rw [List.takeWhile_cons_of_pos (by decide)]
        exact ⟨_, rfl⟩
    obtain ⟨trimmed, htrimmed⟩ := @rdropWhile_cons isWhitespace '{' rfl before
    obtain ⟨key, hkey⟩ := @rdropWhile_cons (· = '"') '{' rfl trimmed
    have hfield' : trimQuotes (trim kv.1) = '{' :: key := by
      rw [hbefore, trim, trimStart, List.dropWhile_cons_of_neg (by decide), trimEnd, htrimmed, trimQuotes,
        List.dropWhile_cons_of_neg (by decide), hkey]
    right
    rw [List.filterMap_cons_some hfield, List.flatMap_cons, tomlLine, hfield']
    exact ⟨_, rfl⟩

/-! ## Reading the lines -/

theorem key_byte {c : Char} (h : c.isAlphanum = true ∨ c = '_' ∨ c = '-') :
    IsAscii c ∧ isKeyByte (UInt8.ofNat c.toNat) = true := by
  have hbytes : ∀ n < 128, (65 ≤ n ∧ n ≤ 90 ∨ 97 ≤ n ∧ n ≤ 122 ∨ 48 ≤ n ∧ n ≤ 57) →
      isKeyByte (UInt8.ofNat n) = true := by
    decide +kernel
  rcases h with halnum | rfl | rfl
  · have hranges : 65 ≤ c.toNat ∧ c.toNat ≤ 90 ∨ 97 ≤ c.toNat ∧ c.toNat ≤ 122 ∨ 48 ≤ c.toNat ∧ c.toNat ≤ 57 := by
      simp only [Char.isAlphanum, Char.isAlpha, Char.isUpper, Char.isLower, Char.isDigit, Bool.or_eq_true,
        Bool.and_eq_true, decide_eq_true_eq, UInt32.le_iff_toNat_le] at halnum
      have hvalue : c.val.toNat = c.toNat := rfl
      rw [hvalue] at halnum
      rcases halnum with (hupper | hlower) | hdigit
      · exact .inl hupper
      · exact .inr (.inl hlower)
      · exact .inr (.inr hdigit)
    have hascii : c.toNat < 128 := by omega
    exact ⟨hascii, hbytes _ hascii hranges⟩
  · decide
  · decide

/-- A key byte is no blank and no mark. -/
theorem key_byte_spec {b : UInt8} (h : isKeyByte b = true) :
    isAsciiWhitespace b = false ∧ b ≠ ascii '#' ∧ b ≠ ascii '[' ∧ b ≠ ascii '"' := by
  have hbytes : ∀ n < 256, isKeyByte (UInt8.ofNat n) = true → isAsciiWhitespace (UInt8.ofNat n) = false ∧
      UInt8.ofNat n ≠ ascii '#' ∧ UInt8.ofNat n ≠ ascii '[' ∧ UInt8.ofNat n ≠ ascii '"' := by
    decide +kernel
  have hspec := hbytes b.toNat b.toNat_lt
  rw [UInt8.ofNat_toNat] at hspec
  exact hspec h

/-- The bytes of a text of ASCII characters. -/
def bytesOf (key : List Char) : Bytes := key.map fun c => UInt8.ofNat c.toNat

theorem utf8_bare (h : Bare key) (s : List Char) : utf8 (key ++ s) = bytesOf key ++ utf8 s := by
  induction key with
  | nil => rfl
  | cons c key ih =>
    rw [List.cons_append, utf8_ascii_cons (key_byte (h c List.mem_cons_self)).1,
      ih fun d hd => h d (List.mem_cons_of_mem _ hd)]
    rfl

theorem unescape_bare (h : Bare key) (s : List Char) : unescape (key ++ s) = key ++ unescape s := by
  induction key with
  | nil => rfl
  | cons c key ih =>
    rw [List.cons_append, unescape_cons (bare_spec h c List.mem_cons_self).2.1,
      ih fun d hd => h d (List.mem_cons_of_mem _ hd), List.cons_append]

theorem skipBlank_cons {b : UInt8} (hblank : isAsciiWhitespace b = false) (hcomment : b ≠ ascii '#') (rest : Bytes) :
    skipBlank (b :: rest) = b :: rest := by
  rw [skipBlank, skipLoop, hblank, if_neg Bool.false_ne_true, if_neg hcomment]

/-- A bare key is read up to the first other byte. -/
theorem parseKey_bare (h : Bare key) (hne : key ≠ []) {b : UInt8} (hb : isKeyByte b = false)
    (rest : Bytes) : parseKey (bytesOf key ++ b :: rest) = some (key, b :: rest) := by
  obtain ⟨c, key, rfl⟩ := List.exists_cons_of_ne_nil hne
  have hbytes : ∀ x ∈ bytesOf (c :: key), isKeyByte x = true := by
    intro x hx
    obtain ⟨d, hd, rfl⟩ := List.mem_map.mp hx
    exact (key_byte (h d hd)).2
  have hback : (bytesOf (c :: key)).map byteChar = c :: key := by
    rw [bytesOf, List.map_map]
    exact (List.map_congr_left fun d hd => byteChar_ascii (key_byte (h d hd)).1).trans (List.map_id _)
  obtain ⟨hblank, hcomment, -, hquote⟩ := key_byte_spec (hbytes _ List.mem_cons_self)
  have htake : (bytesOf (c :: key) ++ b :: rest).takeWhile isKeyByte = bytesOf (c :: key) := by
    rw [List.takeWhile_append_of_pos hbytes, List.takeWhile_cons_of_neg (by rw [hb]; exact Bool.false_ne_true),
      List.append_nil]
  have hdrop : (bytesOf (c :: key) ++ b :: rest).dropWhile isKeyByte = b :: rest := by
    rw [List.dropWhile_append_of_pos hbytes, List.dropWhile_cons_of_neg (by rw [hb]; exact Bool.false_ne_true)]
  have hcons : bytesOf (c :: key) ++ b :: rest = UInt8.ofNat c.toNat :: (bytesOf key ++ b :: rest) := rfl
  rw [hcons] at htake hdrop
  rw [hcons, parseKey, skipBlank_cons hblank hcomment]
  dsimp only
  rw [if_neg hquote, htake, hdrop, if_neg (show bytesOf (c :: key) ≠ [] from List.cons_ne_nil _ _), hback]

/-- Where there is no key. -/
theorem parseKey_none {b : UInt8} (hblank : isAsciiWhitespace b = false) (hcomment : b ≠ ascii '#')
    (hquote : b ≠ ascii '"') (hb : isKeyByte b = false) (rest : Bytes) : parseKey (b :: rest) = none := by
  rw [parseKey, skipBlank_cons hblank hcomment]
  dsimp only
  rw [if_neg hquote, List.takeWhile_cons_of_neg (by rw [hb]; exact Bool.false_ne_true), if_pos rfl]

variable (renderFloat : List Char → Option (List Char))

variable {pairs : List (List Char × List Char)}

/-- The first line gives the first pair. -/
theorem tomlPairs_line (h : Bare key) {s : List Char} {fuel : ℕ}
    (hread : tomlPairs renderFloat fuel (key ++ " = ".toList ++ s) = some pairs) :
    ∃ val more, pairs = (quoted key, val) :: more := by
  have hunescape : unescape (" = ".toList ++ s) = ' ' :: '=' :: ' ' :: unescape s := rfl
  have hbytes : utf8 (' ' :: '=' :: ' ' :: unescape s) =
      ascii ' ' :: ascii '=' :: ascii ' ' :: utf8 (unescape s) := by
    rw [utf8_ascii_cons (by decide), utf8_ascii_cons (by decide), utf8_ascii_cons (by decide)]
    rfl
  rw [tomlPairs, List.append_assoc, unescape_bare h, hunescape, utf8_bare h, hbytes] at hread
  cases fuel with
  | zero => cases hread
  | succ fuel =>
    have hskip : ∀ rest, skipBlank (ascii ' ' :: ascii '=' :: rest) = ascii '=' :: rest := fun rest => rfl
    cases key with
    | nil =>
      rw [pairsLoop, show bytesOf [] = [] from rfl, List.nil_append, hskip] at hread
      dsimp only at hread
      rw [if_neg (by decide), parseKey_none (by decide) (by decide) (by decide) (by decide)] at hread
      cases hread
    | cons c key =>
      have hkey := parseKey_bare h (List.cons_ne_nil c key) (b := ascii ' ') (by decide)
        (ascii '=' :: ascii ' ' :: utf8 (unescape s))
      obtain ⟨hblank, hcomment, hbracket, -⟩ := key_byte_spec (key_byte (h c List.mem_cons_self)).2
      rw [show bytesOf (c :: key) = UInt8.ofNat c.toNat :: bytesOf key from rfl, List.cons_append] at hread hkey
      rw [pairsLoop, skipBlank_cons hblank hcomment] at hread
      dsimp only at hread
      rw [if_neg hbracket, hkey] at hread
      dsimp only at hread
      rw [hskip] at hread
      dsimp only at hread
      rw [if_pos rfl] at hread
      split at hread
      · cases hread
      · obtain ⟨more, -, rfl⟩ := Option.map_eq_some_iff.mp hread
        exact ⟨_, more, rfl⟩

theorem pairsLoop_newline (fuel : ℕ) (table : List (List Char)) (rest : Bytes) :
    pairsLoop renderFloat fuel table (ascii '\n' :: rest) = pairsLoop renderFloat fuel table rest := by
  cases fuel with
  | zero => rfl
  | succ fuel =>
    have hskip : skipBlank (ascii '\n' :: rest) = skipBlank rest := rfl
    rw [pairsLoop, pairsLoop, hskip]

/-- The header of a section is read, or nothing is. -/
theorem pairsLoop_header (h : Bare key) {fuel : ℕ} {table : List (List Char)} {rest : Bytes}
    (hread : pairsLoop renderFloat fuel table (ascii '[' :: (bytesOf key ++ ascii ']' :: rest)) = some pairs) :
    ∃ fuel', pairsLoop renderFloat fuel' [key] rest = some pairs := by
  have hskip : ∀ more, skipBlank (ascii '[' :: more) = ascii '[' :: more := fun _ => rfl
  have hclose : skipBlank (ascii ']' :: rest) = ascii ']' :: rest := rfl
  cases fuel with
  | zero => cases hread
  | succ fuel =>
    rw [pairsLoop, hskip] at hread
    dsimp only at hread
    rw [if_pos rfl] at hread
    cases key with
    | nil =>
      rw [show bytesOf [] = [] from rfl, List.nil_append] at hread
      dsimp only at hread
      rw [if_neg (by decide)] at hread
      cases fuel with
      | zero => cases hread
      | succ fuel =>
        rw [parseSectionHeader, parseKey_none (by decide) (by decide) (by decide) (by decide)] at hread
        cases hread
    | cons c key =>
      have hkey := parseKey_bare h (List.cons_ne_nil c key) (show isKeyByte (ascii ']') = false by decide) rest
      obtain ⟨-, -, hbracket, -⟩ := key_byte_spec (key_byte (h c List.mem_cons_self)).2
      rw [show bytesOf (c :: key) = UInt8.ofNat c.toNat :: bytesOf key from rfl, List.cons_append] at hread hkey
      dsimp only at hread
      rw [if_neg hbracket] at hread
      cases fuel with
      | zero => cases hread
      | succ fuel =>
        rw [parseSectionHeader, hkey] at hread
        dsimp only at hread
        rw [hclose] at hread
        dsimp only at hread
        rw [if_neg (by decide)] at hread
        exact ⟨_, hread⟩

/-- Sections without a line that can be read give no pairs. -/
theorem pairsLoop_sections {fields : List (List Char × List Char)} (hkeys : ∀ field ∈ fields, Bare field.1)
    (hbody : ∀ field ∈ fields, (jsonFields field.2).flatMap tomlLine = [] ∨
      ∃ s, (jsonFields field.2).flatMap tomlLine = '{' :: s)
    {fuel : ℕ} {table : List (List Char)} {pairs : List (List Char × List Char)}
    (hread : pairsLoop renderFloat fuel table (utf8 (unescape (fields.flatMap sectionLines))) = some pairs) :
    pairs = [] := by
  induction fields generalizing fuel table with
  | nil =>
    cases fuel with
    | zero => cases hread
    | succ fuel => exact (Option.some.inj hread).symm
  | cons field fields ih =>
    have hkey := hkeys field List.mem_cons_self
    have hunescape : ∀ s, unescape (sectionLines field ++ s) = '\n' :: '[' :: (field.1 ++ ']' :: '\n' ::
        unescape ((jsonFields field.2).flatMap tomlLine ++ s)) := by
      intro s
      have htext : sectionLines field ++ s = '\n' :: '[' :: (field.1 ++ ']' :: '\n' ::
          ((jsonFields field.2).flatMap tomlLine ++ s)) := by
        simp [sectionLines]
      rw [htext, unescape_cons (by decide), unescape_cons (by decide), unescape_bare hkey, unescape_cons (by decide),
        unescape_cons (by decide)]
    have hbytes : ∀ s, utf8 ('\n' :: '[' :: (field.1 ++ ']' :: '\n' :: s)) =
        ascii '\n' :: ascii '[' :: (bytesOf field.1 ++ ascii ']' :: ascii '\n' :: utf8 s) := by
      intro s
      rw [utf8_ascii_cons (by decide), utf8_ascii_cons (by decide), utf8_bare hkey, utf8_ascii_cons (by decide),
        utf8_ascii_cons (by decide)]
      rfl
    rw [List.flatMap_cons, hunescape, hbytes, pairsLoop_newline] at hread
    obtain ⟨fuel', hrest⟩ := pairsLoop_header renderFloat hkey hread
    rw [pairsLoop_newline] at hrest
    rcases hbody field List.mem_cons_self with hempty | ⟨s, hline⟩
    · rw [hempty, List.nil_append] at hrest
      exact ih (fun f hf => hkeys f (List.mem_cons_of_mem _ hf))
        (fun f hf => hbody f (List.mem_cons_of_mem _ hf)) hrest
    · rw [hline, List.cons_append, unescape_cons (by decide), utf8_ascii_cons (by decide)] at hrest
      cases fuel' with
      | zero => cases hrest
      | succ fuel' =>
        rw [pairsLoop, skipBlank_cons (by decide) (by decide)] at hrest
        dsimp only at hrest
        rw [if_neg (by decide), parseKey_none (by decide) (by decide) (by decide) (by decide)] at hrest
        cases hrest

/-! ## Writing and reading back -/

/-- An object that is written with bare keys. -/
structure BareObject where
  members : Members (List Piece)
  wellFormed : WellFormed (.obj members)
  bare : BareKeys members

/-- The text of the object, as the JSON functions return it. -/
def BareObject.json (object : BareObject) : List Char := compact (.obj object.members)

def BareObject.value (object : BareObject) : Node (List ℕ) := Node.value (.obj object.members)

/-- Both readers give the object back that its writer was given. -/
structure RoundTrips (object : BareObject) : Prop where
  yaml : ∃ text out, Yaml.ntscYamlStringify object.json = .ok text ∧ Yaml.ntscYamlParse renderFloat text = .ok out ∧
    Denotes out object.value
  toml : ∃ text fuel out, ntscTomlStringify object.json = .ok text ∧ ntscTomlParse renderFloat fuel text = some out ∧
    Denotes out object.value

theorem section_fields : ∀ ms : Members (List Piece), ms.All (fun ps => ∀ p ∈ ps, p.Ok) IsNumber →
    ∀ field ∈ memberFields ms, splitJsonEntries field.2 = [field.2]
  | .nil, _ => fun _ hfield => absurd hfield List.not_mem_nil
  | .cons k t ms, ⟨_, ht, hms⟩ => by
    intro field hfield
    rcases List.mem_cons.mp hfield with rfl | hfield
    · have hsingle := @splitJsonEntries_intercalate [compact t]
        (fun v hv => List.mem_singleton.mp hv ▸ skips_compact t ht)
        fun v hv => List.mem_singleton.mp hv ▸ solid_compact ht
      rwa [List.intercalate_singleton] at hsingle
    · exact section_fields ms hms field hfield

/-- What is written for an object with members is read as no pairs, or as pairs of which the first has a bare key. -/
theorem tomlPairs_written (object : BareObject) (hne : object.members ≠ .nil) {text : List Char}
    (hwritten : ntscTomlStringify object.json = .ok text) {fuel : ℕ}
    (hread : tomlPairs renderFloat fuel text = some pairs) :
    pairs = [] ∨ ∃ key val more, Bare key ∧ pairs = (quoted key, val) :: more := by
  rw [BareObject.json, ntscTomlStringify_members object.wellFormed object.bare hne] at hwritten
  obtain rfl := Except.ok.inj hwritten
  cases hroot : (memberFields object.members).filter fun field => ¬IsSection field with
  | nil =>
    left
    rw [hroot, List.flatMap_nil, List.nil_append] at hread
    apply pairsLoop_sections renderFloat _ _ hread
    · intro field hfield
      exact object.bare field (List.mem_filter.mp hfield).1
    · intro field hfield
      obtain ⟨hmem, hsection⟩ := List.mem_filter.mp hfield
      exact section_body (section_fields _ object.wellFormed field hmem) (of_decide_eq_true hsection)
  | cons field fields =>
    right
    have hmem : field ∈ (memberFields object.members).filter fun field => ¬IsSection field := by
      rw [hroot]
      exact List.mem_cons_self
    have hbare : Bare field.1 := object.bare field (List.mem_filter.mp hmem).1
    rw [hroot, List.flatMap_cons, tomlLine, List.append_assoc, List.append_assoc, List.append_assoc] at hread
    obtain ⟨val, more, hpairs⟩ := tomlPairs_line renderFloat hbare hread
    exact ⟨field.1, val, more, hbare, hpairs⟩

theorem not_toml_roundTrips (object : BareObject) (hne : object.members ≠ .nil) : ¬∃ text fuel out,
    ntscTomlStringify object.json = .ok text ∧ ntscTomlParse renderFloat fuel text = some out ∧
      Denotes out object.value := by
  rintro ⟨text, fuel, out, hwritten, hread, hdenotes⟩
  obtain ⟨pairs, hpairs, rfl⟩ := Option.map_eq_some_iff.mp hread
  rcases tomlPairs_written renderFloat object hne hwritten hpairs with rfl | ⟨key, val, more, hbare, rfl⟩
  · have hvalue := denotes_unique hdenotes denotes_empty
    rw [BareObject.value, Node.value, Node.map] at hvalue
    cases hmembers : object.members with
    | nil => exact hne hmembers
    | cons k t ms =>
      rw [hmembers] at hvalue
      cases hvalue
  · obtain ⟨s, hs⟩ := nestedText_front hbare val more
    obtain ⟨t, ht, -⟩ := hdenotes
    rw [hs] at ht
    exact not_isJson_braces s ⟨t, ht⟩

/-- The writers are undone on the empty object and on no other. -/
theorem roundTrips_iff (object : BareObject) : RoundTrips renderFloat object ↔ object.members = .nil := by
  constructor
  · intro h
    by_contra hne
    exact not_toml_roundTrips renderFloat object hne h.toml
  · intro hnil
    have hjson : object.json = ['{', '}'] := by
      rw [BareObject.json, hnil]
      rfl
    have hempty : Denotes ['{', '}'] object.value := by
      rw [BareObject.value, hnil]
      exact ⟨.obj .nil, text_compact (t := .obj .nil) trivial, rfl⟩
    have hyaml : Yaml.ntscYamlParse renderFloat [] = .ok ['{', '}'] := by
      rw [Yaml.ntscYamlParse, show strLines (unescape []) = [] from rfl, Yaml.yamlBlocks]
      rfl
    constructor
    · exact ⟨[], ['{', '}'], by rw [hjson]; rfl, hyaml, hempty⟩
    · exact ⟨[], 1, ['{', '}'], by rw [hjson]; rfl, rfl, hempty⟩

/-- The object with the one member `"a":1`. -/
def oneMember : BareObject where
  members := .cons [.plain 'a'] (.num ['1']) .nil
  wellFormed := by
    have hkey : ∀ p ∈ [Piece.plain 'a'], p.Ok := by
      intro p hp
      rw [List.mem_singleton.mp hp]
      exact show Unescaped 'a' by decide
    exact ⟨hkey, isNumber_one, trivial⟩
  bare := by
    intro field hfield
    rw [List.mem_singleton.mp hfield]
    intro c hc
    rw [List.mem_singleton.mp hc]
    exact .inl rfl

/-- It is written as `a = 1` and read back as a text with two braces. -/
theorem oneMember_not_roundTrips : ntscTomlStringify oneMember.json = .ok "a = 1\n".toList ∧
    ntscTomlParse (fun _ => none) 2 "a = 1\n".toList = some "\x7b\x7b\"a\":1\x7d".toList ∧
    ¬RoundTrips (fun _ => none) oneMember := by
  refine ⟨by decide +kernel, by decide +kernel, fun h => ?_⟩
  exact not_toml_roundTrips _ oneMember (fun hnil => nomatch hnil) h.toml

end Neutron.Toml

namespace Neutron.Yaml

open RuntimeText DocumentText Json Toml

/-! ## Sequences -/

variable {s : List Char} {lines : List (List Char)}

/-- What the reader sees of a line that starts an element. -/
theorem element_line (s : List Char) : ¬Skipped ('-' :: ' ' :: s) ∧
    ((stripDash (trim ('-' :: ' ' :: s))).isSome ∨ trim ('-' :: ' ' :: s) = ['-']) := by
  obtain ⟨u, hu⟩ := @rdropWhile_cons isWhitespace '-' rfl (' ' :: s)
  have htrim : trim ('-' :: ' ' :: s) = '-' :: u := hu
  obtain ⟨rest, hrest⟩ := List.rdropWhile_prefix isWhitespace ('-' :: ' ' :: s)
  rw [hu] at hrest
  rw [Skipped, htrim]
  refine ⟨by simp, ?_⟩
  cases u with
  | nil => exact .inr rfl
  | cons c u =>
    cases hrest
    exact .inl rfl

theorem mem_takeNested (base : ℕ) (h : '-' :: ' ' :: s ∈ lines) : '-' :: ' ' :: s ∈ (takeNested base lines).2 := by
  induction lines with
  | nil => exact h
  | cons line rest ih =>
    rw [takeNested]
    split_ifs with hskip hindent
    · rcases List.mem_cons.mp h with rfl | h
      · exact absurd hskip (element_line s).1
      · exact ih h
    · exact h
    · rcases List.mem_cons.mp h with rfl | h
      · exact absurd (Nat.zero_le base) hindent
      · exact ih h

/-- A line that starts an element at the margin is below no key. -/
theorem yamlBlocks_element (h : '-' :: ' ' :: s ∈ lines) :
    yamlBlocks lines = .error "yaml.parse: top-level sequences are not supported, use inline flow" := by
  have hlater : ∀ {line rest}, '-' :: ' ' :: s ∈ line :: rest →
      ¬((stripDash (trim line)).isSome ∨ trim line = ['-']) → '-' :: ' ' :: s ∈ rest := by
    intro line rest h hdash
    rcases List.mem_cons.mp h with rfl | h
    · exact absurd (element_line s).2 hdash
    · exact h
  fun_induction yamlBlocks lines with
  | case1 => exact absurd h List.not_mem_nil
  | case2 line rest hskip ih =>
    rcases List.mem_cons.mp h with rfl | h
    · exact absurd hskip (element_line s).1
    · exact ih h
  | case3 => rfl
  | case4 line rest _ hdash _ ih => exact ih (hlater h hdash)
  | case5 line rest _ hdash k v _ _ ih =>
    rw [ih (mem_takeNested _ (hlater h hdash))]
    rfl
  | case6 line rest _ hdash k v _ _ ih =>
    rw [ih (hlater h hdash)]
    rfl

theorem strLines_newline (u t : List Char) : strLines (u ++ '\n' :: t) =
    ((u.splitOn '\n').map fun p => if p.getLast? = some '\r' then p.dropLast else p) ++ strLines t := by
  have hne := List.splitOn_ne_nil '\n' t
  rw [strLines, strLines, List.splitOn_append_cons_self, List.dropLast_append_of_ne_nil hne, List.map_append,
    List.getLast?_append_of_ne_nil _ hne, List.append_assoc]

theorem strLines_element (u s : List Char) : ∃ s', '-' :: ' ' :: s' ∈ strLines (u ++ '\n' :: '-' :: ' ' :: s) := by
  rw [strLines_newline]
  rcases newline_cases s with hs | ⟨front, rest, rfl, hfront⟩
  · have hline : '\n' ∉ '-' :: ' ' :: s := by simpa using hs
    refine ⟨s, List.mem_append_right _ ?_⟩
    rw [strLines, List.splitOn_eq_singleton hline]
    exact List.mem_singleton_self _
  · have hline : '\n' ∉ '-' :: ' ' :: front := by simpa using hfront
    rw [← List.cons_append, ← List.cons_append, strLines_newline, List.splitOn_eq_singleton hline, List.map_singleton]
    cases front with
    | nil => exact ⟨[], List.mem_append_right _ List.mem_cons_self⟩
    | cons c front =>
      split_ifs
      · exact ⟨(c :: front).dropLast, List.mem_append_right _ List.mem_cons_self⟩
      · exact ⟨c :: front, List.mem_append_right _ List.mem_cons_self⟩

/-- An entry whose value is an array with elements. -/
def IsSequence (entry : List Char) : Prop := ∃ k v, splitColon entry = some (k, v) ∧ Between '[' ']' (trim v) ∧
  splitFlowSequence (trim (inner (trim v))) ≠ []

/-- The elements of an array are written at the margin, below their key. -/
theorem entryLines_sequence {entry : List Char} (h : IsSequence entry) (idx : ℕ) :
    ∃ u s, entryLines idx entry = u ++ '\n' :: '-' :: ' ' :: s := by
  obtain ⟨k, v, hcolon, hbetween, hitems⟩ := h
  have hbrace : ¬Between '{' '}' (trim v) := fun hbrace => by
    have hhead := hbrace.1
    rw [hbetween.1] at hhead
    cases hhead
  have hinner : trim (inner (trim v)) ≠ [] := fun hnil => hitems (by rw [hnil]; rfl)
  obtain ⟨item, items, hsplit⟩ := List.exists_cons_of_ne_nil hitems
  refine ⟨(if idx > 0 then ['\n'] else []) ++ trimQuotes (trim k) ++ [':'], ?_⟩
  rw [entryLines, hcolon]
  dsimp only
  rw [if_neg hbrace, if_pos hbetween, if_neg hinner, hsplit]
  simp

variable (renderFloat : List Char → Option (List Char))

/-- The text written for an object with an array of elements is thrown for. -/
theorem sequence_not_read {entry : List Char} (hobject : (trim s).head? = some '{')
    (hentry : entry ∈ splitFlowSequence (trim (inner (trim s)))) (hsequence : IsSequence entry) :
    ∃ text, ntscYamlStringify s = .ok text ∧ ntscYamlParse renderFloat text =
      .error "yaml.parse: top-level sequences are not supported, use inline flow" := by
  obtain ⟨idx, hidx⟩ := List.mem_iff_getElem?.mp hentry
  obtain ⟨u, s', hlines⟩ := entryLines_sequence hsequence idx
  obtain ⟨front, rest, htext⟩ : entryLines idx entry <:+:
      (splitFlowSequence (trim (inner (trim s)))).zipIdx.flatMap fun (entry, idx) => entryLines idx entry :=
    List.infix_of_mem_flatten (List.mem_map.mpr ⟨_, List.mk_mem_zipIdx_iff_getElem?.mpr hidx, rfl⟩)
  refine ⟨front ++ entryLines idx entry ++ rest, ?_, ?_⟩
  · have hinner : trim (inner (trim s)) ≠ [] := by
      intro hnil
      rw [hnil] at hentry
      exact absurd hentry List.not_mem_nil
    rw [ntscYamlStringify]
    dsimp only
    rw [if_neg, if_neg, if_neg (not_not.mpr hobject), if_neg hinner, if_neg (List.ne_nil_of_mem hentry), htext]
    · intro hbetween
      cases hobject.symm.trans hbetween.1
    · rintro (hempty | hempty)
      · rw [hempty] at hinner
        exact hinner rfl
      · rw [hempty] at hinner
        exact hinner rfl
  · obtain ⟨line, hline⟩ := strLines_element (unescape (front ++ u)) (unescape (s' ++ rest))
    have hsplit : front ++ entryLines idx entry ++ rest = front ++ u ++ '\n' :: '-' :: ' ' :: (s' ++ rest) := by
      rw [hlines]
      simp
    rw [hsplit, ntscYamlParse, unescape_newline, unescape_cons (by decide), unescape_cons (by decide),
      yamlBlocks_element hline]
    rfl

/-! ### Objects with arrays -/

/-- Without single quotes both splitters find the same entries. -/
theorem splitFlowSequence_eq (h : '\x27' ∉ s) : splitFlowSequence s = splitJsonEntries s := by
  suffices hloop : ∀ current depth inStr escapeNext,
      splitEntriesLoop ['"', '\x27'] current depth inStr escapeNext s =
        splitEntriesLoop ['"'] current depth inStr escapeNext s from hloop [] 0 false false
  induction s with
  | nil => exact fun _ _ _ _ => rfl
  | cons c s ih =>
    rw [List.mem_cons, not_or] at h
    intro current depth inStr escapeNext
    have hquotes : c ∈ ['"', '\x27'] ↔ c ∈ ['"'] := by simp [Ne.symm h.1]
    simp only [splitEntriesLoop, ih h.2, hquotes]

theorem solid_elements : ∀ ts : Nodes (List Piece), ts.All (fun ps => ∀ p ∈ ps, p.Ok) IsNumber →
    ∀ v ∈ ts.renders fun ps => quoted (text ps), Solid v
  | .nil, _ => fun _ hv => absurd hv List.not_mem_nil
  | .cons t ts, ⟨ht, hts⟩ => by
    intro v hv
    rcases List.mem_cons.mp hv with rfl | hv
    · exact solid_compact ht
    · exact solid_elements ts hts v hv

theorem renders_fields : ∀ ms : Members (List Piece), (ms.renders fun ps => quoted (text ps)) =
    (memberFields ms).map fun field => quoted field.1 ++ ':' :: field.2
  | .nil => rfl
  | .cons _ _ ms => congrArg (_ :: ·) (renders_fields ms)

variable {key : List Char} {t : Node (List Piece)} {ts : Nodes (List Piece)}

theorem splitColon_member (h : Bare key) (v : List Char) :
    splitColon (quoted key ++ ':' :: v) = some (quoted key, v) := by
  apply splitColon_append
  have hkey : ':' ∉ key := fun hc => (bare_spec h _ hc).2.2.2.1 rfl
  simpa [quoted] using hkey

theorem isSequence_member (hkey : Bare key) (hwf : WellFormed (.arr (.cons t ts)))
    (hquote : '\x27' ∉ compact (.arr (.cons t ts))) :
    IsSequence (quoted key ++ ':' :: compact (.arr (.cons t ts))) := by
  have hsolid := solid_elements (.cons t ts) hwf
  have hne : ((Nodes.cons t ts).renders fun ps => quoted (text ps)) ≠ [] := List.cons_ne_nil _ _
  have hinner : trim (inner (compact (.arr (.cons t ts)))) = _ := trim_inner hne hsolid '[' ']'
  have hinside := fun h => hquote (List.mem_cons_of_mem _ (List.mem_append_left _ h))
  refine ⟨_, _, splitColon_member hkey _, ?_, ?_⟩
  · rw [(solid_compact hwf).trim]
    refine ⟨rfl, ?_, by simp [compact, Node.render]⟩
    rw [compact, Node.render, ← List.cons_append, List.getLast?_concat]
  · rw [(solid_compact hwf).trim, hinner, splitFlowSequence_eq hinside,
      splitJsonEntries_intercalate (skips_elements _ hwf) hsolid]
    exact hne

/-- An object with an array of elements does not come back. The splitter takes single quotes for quotes. -/
theorem array_not_read (object : BareObject) (hquote : '\x27' ∉ object.json)
    (hmem : (key, compact (.arr (.cons t ts))) ∈ memberFields object.members) (hwf : WellFormed (.arr (.cons t ts))) :
    ∃ text, ntscYamlStringify object.json = .ok text ∧ ntscYamlParse renderFloat text =
      .error "yaml.parse: top-level sequences are not supported, use inline flow" := by
  have hentry := List.mem_map_of_mem (f := fun field => quoted field.1 ++ ':' :: field.2) hmem
  rw [← renders_fields] at hentry
  have hsolid := solid_members object.members object.wellFormed
  have hinner : trim (inner object.json) = _ := trim_inner (List.ne_nil_of_mem hentry) hsolid '{' '}'
  have hinside := fun h => hquote (List.mem_cons_of_mem _ (List.mem_append_left _ h))
  have hjson : trim object.json = object.json := (solid_compact object.wellFormed).trim
  refine sequence_not_read renderFloat (by rw [hjson]; rfl) ?_
    (isSequence_member (object.bare _ hmem) hwf fun h => ?_)
  · rw [hjson, hinner, splitFlowSequence_eq hinside,
      splitJsonEntries_intercalate (skips_members object.members object.wellFormed) hsolid]
    exact hentry
  · exact hinside ((infix_intercalate hentry).subset (List.mem_append_right _ (List.mem_cons_of_mem _ h)))

end Neutron.Yaml
