import Neutron.JsonAcceptance
import Neutron.CsvDocument
import Neutron.YamlDocument

/-!
# The TOML parser's text

`toml.parse` first writes the pairs it reads into one flat text, then cuts that text into entries again and
nests the dotted ones. The flat text starts with a brace that the second pass takes for a part of its first
entry. Errors are not told apart here; the fuel bounds the nesting and the loops of a run.
-/

namespace Neutron.Toml

open RuntimeText DocumentText Json
open JsonParser (Bytes ascii isAsciiWhitespace isAsciiDigit numberRun)

/-- The loops of `skip_whitespace_and_comments`, in a comment or outside of one. -/
def skipLoop : Bool → Bytes → Bytes
  | _, [] => []
  | true, b :: rest => if b = ascii '\n' then skipLoop false rest else skipLoop true rest
  | false, b :: rest =>
    if isAsciiWhitespace b then skipLoop false rest
    else if b = ascii '#' then skipLoop true rest
    else b :: rest

def skipBlank (bytes : Bytes) : Bytes := skipLoop false bytes

def isKeyByte (b : UInt8) : Bool :=
  isAsciiDigit b || (ascii 'a' ≤ b && b ≤ ascii 'z') || (ascii 'A' ≤ b && b ≤ ascii 'Z') || b == ascii '_' ||
    b == ascii '-' || b == ascii '.'

def escaped (e : UInt8) : Char :=
  if e = ascii 'n' then '\n' else if e = ascii 'r' then '\r' else if e = ascii 't' then '\t' else byteChar e

def escapeString (result : List Char) : List Char :=
  replaceChar '"' ['\\', '"'] (replaceChar '\\' ['\\', '\\'] result)

/-- The loop of `parse_quoted_string`. -/
def stringLoop (result : List Char) : Bytes → Option (List Char × Bytes)
  | [] => none
  | b :: rest =>
    if b = ascii '"' then some (quoted (escapeString result), rest)
    else if b = ascii '\\' then
      match rest with
      | [] => none
      | e :: rest' => stringLoop (result ++ [escaped e]) rest'
    else stringLoop (result ++ [byteChar b]) rest

/-- A quoted key keeps the quotes of `parse_quoted_string`. -/
def parseKey (bytes : Bytes) : Option (List Char × Bytes) :=
  match skipBlank bytes with
  | [] => none
  | b :: rest =>
    if b = ascii '"' then stringLoop [] rest
    else
      let key := (b :: rest).takeWhile isKeyByte
      if key = [] then none else some (key.map byteChar, (b :: rest).dropWhile isKeyByte)

def parseLiteralString (bytes : Bytes) : Option (List Char × Bytes) :=
  match bytes.dropWhile (· ≠ ascii '\x27') with
  | [] => none
  | _ :: rest => some (quoted ((fromUtf8? (bytes.takeWhile (· ≠ ascii '\x27'))).getD []), rest)

variable (renderFloat : List Char → Option (List Char))

def parseNumber (bytes : Bytes) : Option (List Char × Bytes) :=
  let text := (numberRun bytes).1.map byteChar
  if '.' ∈ text ∨ 'e' ∈ text ∨ 'E' ∈ text then (renderFloat text).map fun f => (f, (numberRun bytes).2)
  else (parseI64 text).map fun n => ((toString n).toList, (numberRun bytes).2)

def parseBool (bytes : Bytes) : Option (List Char × Bytes) :=
  match bytes.dropPrefix? (utf8 ['t', 'r', 'u', 'e']) with
  | some rest => some (['t', 'r', 'u', 'e'], rest)
  | none => (bytes.dropPrefix? (utf8 ['f', 'a', 'l', 's', 'e'])).map fun rest => (['f', 'a', 'l', 's', 'e'], rest)

mutual

def parseValue : ℕ → Bytes → Option (List Char × Bytes)
  | 0, _ => none
  | fuel + 1, bytes =>
    match skipBlank bytes with
    | [] => none
    | b :: rest =>
      if b = ascii '"' then stringLoop [] rest
      else if b = ascii '\x27' then parseLiteralString rest
      else if b = ascii '[' then
        match skipBlank rest with
        | [] => arrayLoop fuel [] []
        | c :: rest' => if c = ascii ']' then some (['[', ']'], rest') else arrayLoop fuel [] (c :: rest')
      else if b = ascii '{' then
        match skipBlank rest with
        | [] => tableLoop fuel [] []
        | c :: rest' => if c = ascii '}' then some (['{', '}'], rest') else tableLoop fuel [] (c :: rest')
      else if b = ascii 't' ∨ b = ascii 'f' then parseBool (b :: rest)
      else if b = ascii '-' ∨ isAsciiDigit b then parseNumber renderFloat (b :: rest)
      else none

/-- The loop of `parse_array`. -/
def arrayLoop : ℕ → List (List Char) → Bytes → Option (List Char × Bytes)
  | 0, _, _ => none
  | fuel + 1, elements, bytes =>
    match parseValue fuel bytes with
    | none => none
    | some (val, rest) =>
      let elements := elements ++ [val]
      match skipBlank rest with
      | [] => none
      | b :: rest' =>
        if b = ascii ']' then some ('[' :: (List.intercalate [','] elements ++ [']']), rest')
        else if b = ascii ',' then arrayLoop fuel elements rest'
        else none

/-- The loop of `parse_inline_table`. -/
def tableLoop : ℕ → List (List Char) → Bytes → Option (List Char × Bytes)
  | 0, _, _ => none
  | fuel + 1, pairs, bytes =>
    match parseKey bytes with
    | none => none
    | some (key, rest) =>
      match skipBlank rest with
      | [] => none
      | b :: rest' =>
        if b = ascii '=' then
          match parseValue fuel rest' with
          | none => none
          | some (val, rest'') =>
            let pairs := pairs ++ ['"' :: (key ++ '"' :: ':' :: val)]
            match skipBlank rest'' with
            | [] => none
            | c :: more =>
              if c = ascii '}' then some ('{' :: (List.intercalate [','] pairs ++ ['}']), more)
              else if c = ascii ',' then tableLoop fuel pairs more
              else none
        else none

end

/-- `parse_section_header` -/
def parseSectionHeader : ℕ → Bytes → Option (List (List Char) × Bytes)
  | 0, _ => none
  | fuel + 1, bytes =>
    match parseKey bytes with
    | none => none
    | some (key, rest) =>
      match skipBlank rest with
      | [] => some ([key], [])
      | b :: rest' =>
        if b = ascii '.' then (parseSectionHeader fuel rest').map fun r => (key :: r.1, r.2)
        else some ([key], b :: rest')

/-- A closing bracket that is there is skipped. -/
def skipBracket : Bytes → Bytes
  | [] => []
  | b :: rest => if b = ascii ']' then rest else b :: rest

def fullKey (currentTable : List (List Char)) (key : List Char) : List Char :=
  if currentTable = [] then quoted key
  else List.intercalate ['.'] (currentTable.map quoted) ++ '.' :: quoted key

/-- The loop of `parse_toml`: the full keys of the document's pairs with their values' texts. -/
def pairsLoop : ℕ → List (List Char) → Bytes → Option (List (List Char × List Char))
  | 0, _, _ => none
  | fuel + 1, currentTable, bytes =>
    match skipBlank bytes with
    | [] => some []
    | b :: rest =>
      if b = ascii '[' then
        match rest with
        | c :: rest' =>
          if c = ascii '[' then
            match parseSectionHeader fuel rest' with
            | none => none
            | some (key, more) => pairsLoop fuel key (skipBracket (skipBracket (skipBlank more)))
          else
            match parseSectionHeader fuel (c :: rest') with
            | none => none
            | some (key, more) => pairsLoop fuel key (skipBracket (skipBlank more))
        | [] => none
      else
        match parseKey (b :: rest) with
        | none => none
        | some (key, rest') =>
          match skipBlank rest' with
          | [] => none
          | c :: rest'' =>
            if c = ascii '=' then
              match parseValue renderFloat fuel rest'' with
              | none => none
              | some (val, more) => (pairsLoop fuel currentTable more).map ((fullKey currentTable key, val) :: ·)
            else none

/-- What `parse_toml` hands on. -/
def flatText (pairs : List (List Char × List Char)) : List Char :=
  '{' :: List.intercalate [','] (pairs.map fun (key, val) => key ++ ':' :: val)

def splitJsonEntries (s : List Char) : List (List Char) := splitEntriesLoop ['"'] [] 0 false false s

/-- `trim_matches('"')` -/
def trimQuotes (s : List Char) : List Char := (s.dropWhile (· = '"')).rdropWhile (· = '"')

def keyParts (keyPart : List Char) : List (List Char) := (keyPart.splitOn '.').map fun s => trimQuotes (trim s)

/-- The entries without a dot in their key. -/
def rootEntries (entries : List (List Char)) : List (List Char) :=
  entries.filter fun entry => (splitColon entry).any fun kv => (keyParts kv.1).length = 1

def addField (sections : List (List (List Char) × List (List Char))) (key : List (List Char)) (field : List Char) :
    List (List (List Char) × List (List Char)) :=
  match sections with
  | [] => [(key, [field])]
  | (k, fields) :: rest => if k = key then (k, fields ++ [field]) :: rest else (k, fields) :: addField rest key field

/-- The sections of the other entries, each with its fields. -/
def sections (entries : List (List Char)) : List (List (List Char) × List (List Char)) :=
  entries.foldl (fun found entry =>
    match splitColon entry with
    | none => found
    | some (keyPart, val) =>
      if (keyParts keyPart).length = 1 then found
      else addField found (keyParts keyPart).dropLast
        (quoted ((keyParts keyPart).getLast?.getD []) ++ ':' :: trim val)) []

def sectionText (key fields : List (List Char)) : List Char :=
  List.intercalate ['.'] (key.map quoted) ++ '.' :: '{' :: (List.intercalate [','] fields ++ ['}'])

def buildNestedJson (flat : List Char) : List Char :=
  if trim flat = [] then ['{']
  else
    let entries := splitJsonEntries (trim flat)
    '{' :: List.intercalate [','] (rootEntries entries ++ (sections entries).map fun (key, fields) => sectionText key fields)

/-- The text returned for the pairs read. -/
def nestedText (pairs : List (List Char × List Char)) : List Char :=
  let nested := buildNestedJson (flatText pairs)
  (if nested.getLast? = some ',' then nested.dropLast else nested) ++ ['}']

def tomlPairs (fuel : ℕ) (s : List Char) : Option (List (List Char × List Char)) :=
  pairsLoop renderFloat fuel [] (utf8 (unescape s))

def ntscTomlParse (fuel : ℕ) (s : List Char) : Option (List Char) := (tomlPairs renderFloat fuel s).map nestedText

/-! ## Documents without pairs -/

theorem nestedText_nil : nestedText [] = ['{', '}'] := by decide

theorem denotes_empty : Denotes (nestedText []) (.obj .nil) := by
  rw [nestedText_nil]
  exact ⟨.obj .nil, text_compact (t := .obj .nil) trivial, rfl⟩

/-! ## Documents that start with a bare key -/

/-- A key written without quotes and dots. -/
def Bare (key : List Char) : Prop := ∀ c ∈ key, c.isAlphanum = true ∨ c = '_' ∨ c = '-'

variable {key : List Char}

theorem bare_spec (h : Bare key) : ∀ c ∈ key, c ≠ '"' ∧ c ≠ '\\' ∧ c ≠ '.' ∧ c ≠ ':' ∧ c ≠ '{' := by
  intro c hc
  rcases h c hc with halnum | rfl | rfl
  · refine ⟨?_, ?_, ?_, ?_, ?_⟩
    all_goals
      rintro rfl
      exact absurd halnum (by decide)
  · decide
  · decide

/-- The front of the flat text: the brace and the first key, up to its colon. -/
def front (key : List Char) : List Char := '{' :: (quoted key ++ [':'])

theorem front_ne_nil (key s : List Char) : front key ++ s ≠ [] := List.cons_ne_nil _ _

theorem trim_front (key s : List Char) : ∃ s', trim (front key ++ s) = front key ++ s' := by
  have hfront : front key = '{' :: quoted key ++ [':'] := rfl
  rw [trim, trimStart, hfront, List.append_assoc, List.cons_append, List.dropWhile_cons_of_neg (by decide)]
  rw [← List.cons_append, ← List.append_assoc]
  induction s using List.reverseRecOn with
  | nil =>
    refine ⟨[], ?_⟩
    rw [List.append_nil, trimEnd, List.rdropWhile_concat_neg _ _ _ (by decide)]
  | append_singleton s c ih =>
    by_cases hc : isWhitespace c = true
    · rw [← List.append_assoc, trimEnd, List.rdropWhile_concat_pos _ _ _ hc]
      exact ih
    · rw [← List.append_assoc, trimEnd, List.rdropWhile_concat_neg _ _ _ hc, List.append_assoc]
      exact ⟨s ++ [c], rfl⟩

/-- The first entry has at its front what has been read of it. -/
theorem entries_front (s more : List Char) (depth : Int) (inStr escapeNext : Bool) :
    ∃ rest entries, splitEntriesLoop ['"'] (front key ++ more) depth inStr escapeNext s =
      (front key ++ rest) :: entries := by
  have hfinished : ∀ more, ∃ rest, finished (front key ++ more) = [front key ++ rest] := by
    intro more
    obtain ⟨rest, hrest⟩ := trim_front key more
    refine ⟨rest, ?_⟩
    rw [finished, hrest, if_neg (front_ne_nil key rest)]
  induction s generalizing more depth inStr escapeNext with
  | nil =>
    obtain ⟨rest, hrest⟩ := hfinished more
    exact ⟨rest, [], hrest⟩
  | cons c s ih =>
    have hstep : ∀ depth inStr escapeNext, ∃ rest entries,
        splitEntriesLoop ['"'] (front key ++ more ++ [c]) depth inStr escapeNext s = (front key ++ rest) :: entries := by
      intro depth inStr escapeNext
      rw [List.append_assoc]
      exact ih (more ++ [c]) depth inStr escapeNext
    rw [splitEntriesLoop]
    split_ifs
    · exact hstep _ _ _
    · exact hstep _ _ _
    · exact hstep _ _ _
    · exact hstep _ _ _
    · exact hstep _ _ _
    · exact hstep _ _ _
    · obtain ⟨rest, hrest⟩ := hfinished more
      rw [hrest]
      exact ⟨rest, _, rfl⟩
    · exact hstep _ _ _

theorem splitEntriesLoop_key (hkey : ∀ c ∈ key, c ≠ '"' ∧ c ≠ '\\') (current s : List Char)
    (depth : Int) : splitEntriesLoop ['"'] current depth true false (key ++ s) =
      splitEntriesLoop ['"'] (current ++ key) depth true false s := by
  induction key generalizing current with
  | nil => rw [List.nil_append, List.append_nil]
  | cons c key ih =>
    obtain ⟨hquote, hbackslash⟩ := hkey c List.mem_cons_self
    rw [List.cons_append, splitEntriesLoop, if_neg Bool.false_ne_true, if_neg fun h => hbackslash h.1,
      if_neg (by simpa using hquote), if_pos rfl, ih fun d hd => hkey d (List.mem_cons_of_mem _ hd), List.append_assoc]
    rfl

/-- The first brace keeps the entries of the flat text together. -/
theorem splitJsonEntries_front (hkey : Bare key) (s : List Char) :
    ∃ rest entries, splitJsonEntries (front key ++ s) = (front key ++ rest) :: entries := by
  have hclean : ∀ c ∈ key, c ≠ '"' ∧ c ≠ '\\' := fun c hc => ⟨(bare_spec hkey c hc).1, (bare_spec hkey c hc).2.1⟩
  have hopen : splitJsonEntries (front key ++ s) =
      splitEntriesLoop ['"'] ['{', '"'] 1 true false (key ++ '"' :: ':' :: s) := by
    have htext : front key ++ s = '{' :: '"' :: (key ++ '"' :: ':' :: s) := by simp [front, quoted]
    rw [htext, splitJsonEntries]
    rfl
  have hclose : splitEntriesLoop ['"'] (['{', '"'] ++ key) 1 true false ('"' :: ':' :: s) =
      splitEntriesLoop ['"'] (front key ++ []) 1 false false s := by
    have htext : ['{', '"'] ++ key ++ ['"'] ++ [':'] = front key ++ [] := by simp [front, quoted]
    rw [← htext]
    rfl
  rw [hopen, splitEntriesLoop_key hclean, hclose]
  exact entries_front s [] 1 false false

/-- The first entry is taken for one without a section. -/
theorem rootEntries_front (hkey : Bare key) (rest : List Char) (entries : List (List Char)) :
    rootEntries ((front key ++ rest) :: entries) = (front key ++ rest) :: rootEntries entries := by
  have hcolon : ∀ c ∈ '{' :: quoted key, c ≠ ':' ∧ c ≠ '.' := by
    intro c hc
    simp only [quoted, List.mem_cons, List.mem_append, List.not_mem_nil, or_false] at hc
    rcases hc with rfl | rfl | hc | rfl
    · decide
    · decide
    · exact ⟨(bare_spec hkey c hc).2.2.2.1, (bare_spec hkey c hc).2.2.1⟩
    · decide
  have hfront : front key ++ rest = ('{' :: quoted key) ++ ':' :: rest := by simp [front]
  have hsplit : splitColon (front key ++ rest) = some ('{' :: quoted key, rest) := by
    rw [hfront]
    exact splitColon_append (fun hmem => (hcolon ':' hmem).1 rfl) rest
  have hparts : (keyParts ('{' :: quoted key)).length = 1 := by
    rw [keyParts, List.length_map, List.splitOn_eq_singleton fun hmem => (hcolon '.' hmem).2 rfl]
    rfl
  rw [rootEntries, List.filter_cons_of_pos]
  · rfl
  · rw [hsplit]
    exact decide_eq_true hparts

/-- Two braces are at the front of the text returned. -/
theorem nestedText_front (hkey : Bare key) (val : List Char) (pairs : List (List Char × List Char)) :
    ∃ more, nestedText ((quoted key, val) :: pairs) = '{' :: '{' :: more := by
  obtain ⟨s, hflat⟩ : ∃ s, flatText ((quoted key, val) :: pairs) = front key ++ s := by
    rcases pairs with _ | ⟨p, pairs⟩
    · exact ⟨val, by simp [flatText, front]⟩
    · exact ⟨val ++ ',' :: List.intercalate [','] ((p :: pairs).map fun (key, val) => key ++ ':' :: val),
        by simp [flatText, front]⟩
  obtain ⟨s', htrim⟩ := trim_front key s
  obtain ⟨rest, entries, hentries⟩ := splitJsonEntries_front hkey s'
  obtain ⟨more, hnested⟩ : ∃ more, buildNestedJson (flatText ((quoted key, val) :: pairs)) = '{' :: '{' :: '"' :: more := by
    rw [hflat, buildNestedJson, htrim, if_neg (front_ne_nil key s')]
    dsimp only
    rw [hentries, rootEntries_front hkey, List.cons_append]
    have hhead : ∀ L, ∃ more, List.intercalate [','] ((front key ++ rest) :: L) = '{' :: '"' :: more := by
      intro L
      rcases L with _ | ⟨l, L⟩
      · exact ⟨_, List.intercalate_singleton⟩
      · exact ⟨_, by rw [List.intercalate_cons_cons]; rfl⟩
    obtain ⟨more, hmore⟩ := hhead _
    exact ⟨more, congrArg ('{' :: ·) hmore⟩
  rw [nestedText, hnested]
  split_ifs
  · exact ⟨_, rfl⟩
  · exact ⟨_, rfl⟩

theorem not_isJson_braces (s : List Char) : ¬ IsJson ('{' :: '{' :: s) := by
  rintro ⟨t, ht⟩
  obtain ⟨ws, -, hreads⟩ := JsonParser.reads_of_text ht
  have hparse := JsonParser.parse_eq_ok_iff.mpr hreads
  have hskip : ∀ more, JsonParser.skipWhitespace (ascii '{' :: more) = ascii '{' :: more := fun more =>
    List.dropWhile_cons_of_neg (by decide)
  have herror : ∀ fuel more, JsonParser.parseValue (fuel + 2) (ascii '{' :: ascii '{' :: more) =
      .error ("Expected '" ++ String.singleton '"' ++ "'") := by
    intro fuel more
    rw [JsonParser.parseValue, hskip]
    dsimp only
    rw [if_neg (by decide), if_pos rfl, hskip]
    dsimp only
    rw [if_neg (by decide), JsonParser.objectLoop]
    rfl
  rw [JsonParser.parse, JsonParser.utf8_ascii (by decide), JsonParser.utf8_ascii (by decide), List.length_cons,
    show 2 * ((ascii '{' :: utf8 s).length + 1) + 1 = 2 * (ascii '{' :: utf8 s).length + 1 + 2 by omega, herror] at hparse
  exact absurd hparse (by simp)

/-- What the three functions return is JSON where nothing put between quotes or printed spoils it; of a TOML
document without pairs it is the empty object, and of one that starts with a bare key it is never JSON. -/
theorem documents_emit_json (s : List Char) :
    (Csv.Clean renderFloat s → IsJson (Csv.ntscCsvParse s renderFloat)) ∧
    (Yaml.Clean renderFloat s → ∀ out, Yaml.ntscYamlParse renderFloat s = .ok out → IsJson out) ∧
    ∀ fuel out, ntscTomlParse renderFloat fuel s = some out →
      (tomlPairs renderFloat fuel s = some [] → Denotes out (.obj .nil)) ∧
      ∀ key val pairs, Bare key → tomlPairs renderFloat fuel s = some ((quoted key, val) :: pairs) → ¬ IsJson out := by
  refine ⟨Csv.isJson_ntscCsvParse renderFloat, fun hclean out => Yaml.isJson_ntscYamlParse renderFloat hclean, ?_⟩
  intro fuel out hout
  obtain ⟨pairs, hpairs, rfl⟩ := Option.map_eq_some_iff.mp hout
  rw [hpairs]
  refine ⟨fun hempty => ?_, fun key val rest hkey hfirst => ?_⟩
  · rw [Option.some.inj hempty]
    exact denotes_empty
  · obtain ⟨more, hmore⟩ := nestedText_front hkey val rest
    rw [Option.some.inj hfirst, hmore]
    exact not_isJson_braces more

theorem isStringText_word {s : List Char} (h : s.all (fun c => decide (Unescaped c)) = true) : IsStringText s :=
  ⟨s.map Piece.plain, plain_ok (forall_of_all h), by simp [text, List.flatMap_map, Piece.text]⟩

theorem clean_escaped {s breaks : List Char} (h : s.all (fun c => decide (0x20 ≤ c.toNat)) = true) :
    Inserted.Clean breaks (.escaped s) := fun c hc => .inl (forall_of_all h c hc)

/-- The lines `a: x`, `b:` and `  c: true`. -/
theorem yamlBlocks_nested : Yaml.yamlBlocks (strLines (unescape "a: x\nb:\n  c: true".toList)) =
    .ok [(['a'], .scalar ['x']), (['b'], .fields [(['c'], ['t', 'r', 'u', 'e'])])] := by
  have hlines : strLines (unescape "a: x\nb:\n  c: true".toList) =
      ["a: x".toList, "b:".toList, "  c: true".toList] := by decide
  have hlast : Yaml.yamlBlocks [] = .ok [] := by rw [Yaml.yamlBlocks]
  have hnested : Yaml.yamlBlocks ["b:".toList, "  c: true".toList] =
      .ok [(['b'], .fields [(['c'], ['t', 'r', 'u', 'e'])])] := by
    have hcolon : splitColon (trim "b:".toList) = some (['b'], []) := by decide
    have htake : Yaml.takeNested (Yaml.countIndent "b:".toList) ["  c: true".toList] =
        (["  c: true".toList], []) := by decide
    rw [Yaml.yamlBlocks, if_neg (by decide), if_neg (by decide), hcolon]
    dsimp only
    rw [if_pos (by decide), htake, hlast]
    rfl
  have hcolon : splitColon (trim "a: x".toList) = some (['a'], [' ', 'x']) := by decide
  rw [hlines, Yaml.yamlBlocks, if_neg (by decide), if_neg (by decide), hcolon]
  dsimp only
  rw [if_neg (by decide), hnested]
  rfl

/-- A table of two columns, a mapping with a nested one, and a document of comments. -/
theorem documents_emit_json_members :
    IsJson (Csv.ntscCsvParse "a,b\nx,1\ny,".toList fun _ => none) ∧
    (∃ out, Yaml.ntscYamlParse (fun _ => none) "a: x\nb:\n  c: true".toList = .ok out ∧ IsJson out) ∧
    ∃ out, ntscTomlParse (fun _ => none) 1 "#a\n#b".toList = some out ∧ Denotes out (.obj .nil) := by
  have ha : IsStringText ['a'] := isStringText_word (by decide)
  have hb : IsStringText ['b'] := isStringText_word (by decide)
  have hc : IsStringText ['c'] := isStringText_word (by decide)
  have hx : ∀ breaks, Inserted.Clean breaks (.escaped ['x']) := fun _ => clean_escaped (by decide)
  have hy : ∀ breaks, Inserted.Clean breaks (.escaped ['y']) := fun _ => clean_escaped (by decide)
  have hclean : Csv.Clean (fun _ => none) "a,b\nx,1\ny,".toList := by
    have hlines : Csv.csvLines "a,b\nx,1\ny,".toList = [['a', ',', 'b'], ['x', ',', '1'], ['y', ',']] := by decide
    rw [Csv.Clean, hlines]
    exact ⟨⟨ha, hx _, hb, isNumber_one, trivial⟩, ⟨ha, hy _, hb, isStringText_word (s := []) rfl, trivial⟩, trivial⟩
  have hyaml : Yaml.Clean (fun _ => none) "a: x\nb:\n  c: true".toList := by
    intro blocks h
    rw [yamlBlocks_nested] at h
    obtain rfl := Except.ok.inj h
    refine ⟨ha, ?_, hb, ⟨hc, ?_, trivial⟩, trivial⟩
    · rw [Yaml.blockNode, Yaml.valueNode]
      exact hx _
    · rw [Yaml.fieldNode, if_neg (by decide), Yaml.valueNode]
      trivial
  obtain ⟨out, hout⟩ : ∃ out, Yaml.ntscYamlParse (fun _ => none) "a: x\nb:\n  c: true".toList = .ok out :=
    ⟨_, by rw [Yaml.ntscYamlParse, yamlBlocks_nested]; rfl⟩
  exact ⟨(documents_emit_json _ _).1 hclean, ⟨out, hout, (documents_emit_json _ _).2.1 hyaml out hout⟩,
    ⟨['{', '}'], rfl, ((documents_emit_json (fun _ => none) "#a\n#b".toList).2.2 1 _ rfl).1 rfl⟩⟩

/-- The document `a=1` gives a text with two braces. -/
theorem toml_emits_braces : ¬ ∀ renderFloat fuel s out, ntscTomlParse renderFloat fuel s = some out → IsJson out := by
  intro h
  have hpairs : ntscTomlParse (fun _ => none) 2 ['a', '=', '1'] =
      some ['{', '{', '"', 'a', '"', ':', '1', '}'] := by decide
  exact not_isJson_braces _ (h _ _ _ _ hpairs)

end Neutron.Toml
