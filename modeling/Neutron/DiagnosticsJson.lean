import Mathlib.Algebra.Group.Nat.Defs
import Neutron.JsonDecoding
import Neutron.Tokens

/-!
# Diagnostics as JSON

`diagnostics_to_json` writes a batch of diagnostics as one JSON document, by joining the fields that are
there and with a string escaper of its own.
-/

namespace Neutron.Diag

open Json RuntimeText
open Source (Span)

inductive Severity where
  | error | warning | note | help
  deriving DecidableEq

def Severity.asStr : Severity → String
  | .error => "error"
  | .warning => "warning"
  | .note => "note"
  | .help => "help"

structure Label where
  span : Span
  message : List Char
  isPrimary : Bool

structure Diagnostic where
  severity : Severity
  message : List Char
  code : Option (List Char)
  labels : List Label
  notes : List (List Char)
  help : Option (List Char)
  filePath : Option (List Char)
  lint : Option (List Char)

/-- The text `{:04x}` writes. -/
def paddedHex (n : ℕ) : List Char :=
  List.replicate (4 - (Nat.toDigits 16 n).length) '0' ++ Nat.toDigits 16 n

def escapeChar (ch : Char) : List Char :=
  if ch = '"' then ['\\', '"']
  else if ch = '\\' then ['\\', '\\']
  else if ch = '\n' then ['\\', 'n']
  else if ch = '\r' then ['\\', 'r']
  else if ch = '\t' then ['\\', 't']
  else if ch.toNat < 0x20 then '\\' :: 'u' :: paddedHex ch.toNat
  else [ch]

/-- `quote` -/
def quoteText (value : List Char) : List Char := '"' :: (value.flatMap escapeChar ++ ['"'])

/-- The end column of a label, in the wrapping arithmetic of a release build. -/
def endColumn (span : Span) : ℕ := (span.column + (span.stop + 2 ^ 64 - span.start) % 2 ^ 64 % 2 ^ 32) % 2 ^ 32

def labelToJson (label : Label) : List Char :=
  '{' :: (List.intercalate [','] [
    field "line" (Nat.toDigits 10 label.span.line),
    field "column" (Nat.toDigits 10 label.span.column),
    field "message" (quoteText label.message),
    field "is_primary" (if label.isPrimary then "true".toList else "false".toList)] ++ ['}'])

/-- The label whose position is that of the diagnostic. -/
def Diagnostic.primary (diag : Diagnostic) : Option Label :=
  (diag.labels.find? (·.isPrimary)).or diag.labels.head?

/-- `if let Some(value)`: a field that is left out when there is no value. -/
def optionalField (name : String) : Option (List Char) → List (List Char)
  | some value => [field name (quoteText value)]
  | none => []

def spanFields (line column endLine endColumn : ℕ) : List (List Char) :=
  [field "line" (Nat.toDigits 10 line), field "column" (Nat.toDigits 10 column),
    field "end_line" (Nat.toDigits 10 endLine), field "end_column" (Nat.toDigits 10 endColumn)]

/-- The fields that say where the diagnostic is. -/
def positionFields (filePath : Option (List Char)) : Option Label → List (List Char)
  | some label => optionalField "file" filePath ++
    spanFields label.span.line label.span.column label.span.line (endColumn label.span)
  | none => []

def diagnosticFields (diag : Diagnostic) : List (List Char) :=
  [field "severity" ('"' :: (diag.severity.asStr.toList ++ ['"']))] ++
  optionalField "code" diag.code ++
  [field "message" (quoteText diag.message)] ++
  positionFields diag.filePath diag.primary ++
  (if diag.labels = [] then []
    else [field "labels" ('[' :: (List.intercalate [','] (diag.labels.map labelToJson) ++ [']']))]) ++
  (if diag.notes = [] then []
    else [field "notes" ('[' :: (List.intercalate [','] (diag.notes.map quoteText) ++ [']']))]) ++
  optionalField "help" diag.help ++
  optionalField "lint" diag.lint

def diagnosticToJson (diag : Diagnostic) : List Char :=
  '{' :: (List.intercalate [','] (diagnosticFields diag) ++ ['}'])

def errorCount (diagnostics : List Diagnostic) : ℕ :=
  (diagnostics.filter (·.severity = .error)).length

def diagnosticsToJson (diagnostics : List Diagnostic) : List Char :=
  '{' :: (List.intercalate [','] [
    field "version" ['1'],
    field "error_count" (Nat.toDigits 10 (errorCount diagnostics)),
    field "diagnostics" ('[' :: (List.intercalate [','] (diagnostics.map diagnosticToJson) ++ [']']))] ++ ['}'])

/-! ### What a reader takes from a document -/

structure LabelReport where
  message : List Char
  line : ℕ
  column : ℕ
  isPrimary : Bool
  deriving DecidableEq

structure Report where
  severity : Severity
  code : Option (List Char)
  message : List Char
  notes : List (List Char)
  help : Option (List Char)
  lint : Option (List Char)
  labels : List LabelReport
  deriving DecidableEq

def Label.report (label : Label) : LabelReport :=
  ⟨label.message, label.span.line, label.span.column, label.isPrimary⟩

def Diagnostic.report (diag : Diagnostic) : Report :=
  ⟨diag.severity, diag.code, diag.message, diag.notes, diag.help, diag.lint, diag.labels.map Label.report⟩

def readSeverity (v : Value) : Option Severity :=
  v.string?.bind fun s => [Severity.error, .warning, .note, .help].find? (·.asStr.toList = s)

def readLabel (v : Value) : Option LabelReport := do
  let message ← v.required "message" Node.string?
  let line ← v.required "line" Node.natural?
  let column ← v.required "column" Node.natural?
  let isPrimary ← v.required "is_primary" Node.bool?
  return ⟨message, line, column, isPrimary⟩

/-- A list that is left out is empty. -/
def readDiagnostic (v : Value) : Option Report := do
  let severity ← v.required "severity" readSeverity
  let code ← v.optional "code" Node.string?
  let message ← v.required "message" Node.string?
  let notes ← v.optional "notes" (Node.array? Node.string?)
  let help ← v.optional "help" Node.string?
  let lint ← v.optional "lint" Node.string?
  let labels ← v.optional "labels" (Node.array? readLabel)
  return ⟨severity, code, message, notes.getD [], help, lint, labels.getD []⟩

def readDocument (v : Value) : Option (ℕ × List Report) := do
  let count ← v.required "error_count" Node.natural?
  let reports ← v.required "diagnostics" (Node.array? readDiagnostic)
  return (count, reports)

/-! ### The value that is written -/

/-- A control character as four hexadecimal digits. -/
def controlPiece (n : ℕ) : Piece := .unicode '0' '0' (if n < 16 then '0' else '1') (n % 16).digitChar

def piece (ch : Char) : Piece :=
  if ch = '"' then .escape .quote
  else if ch = '\\' then .escape .backslash
  else if ch = '\n' then .escape .n
  else if ch = '\r' then .escape .r
  else if ch = '\t' then .escape .t
  else if ch.toNat < 0x20 then controlPiece ch.toNat
  else .plain ch

theorem controlPiece_spec : ∀ n < 0x20, (controlPiece n).text = '\\' :: 'u' :: paddedHex n ∧
    (controlPiece n).units = [n] ∧ (controlPiece n).Ok := by
  decide

theorem piece_spec (ch : Char) : (piece ch).text = escapeChar ch ∧ (piece ch).units = utf16 ch ∧ (piece ch).Ok := by
  rw [piece, escapeChar]
  split_ifs with hquote hbackslash hn hr ht hcontrol
  · exact ⟨rfl, by rw [hquote]; rfl, trivial⟩
  · exact ⟨rfl, by rw [hbackslash]; rfl, trivial⟩
  · exact ⟨rfl, by rw [hn]; rfl, trivial⟩
  · exact ⟨rfl, by rw [hr]; rfl, trivial⟩
  · exact ⟨rfl, by rw [ht]; rfl, trivial⟩
  · rw [utf16, if_pos (by omega)]
    exact controlPiece_spec ch.toNat hcontrol
  · exact ⟨rfl, rfl, Nat.not_lt.mp hcontrol, hquote, hbackslash⟩

def strTree (s : List Char) : Tree := .str (s.map piece)

theorem compact_str (s : List Char) : compact (strTree s) = quoteText s := by
  have htext : text (s.map piece) = s.flatMap escapeChar := by
    rw [text, List.flatMap_map]
    exact congrArg (s.flatMap ·) (funext fun c => (piece_spec c).1)
  change quoted (text (s.map piece)) = _
  rw [htext, quoted, quoteText]

theorem units_pieces (s : List Char) : units (s.map piece) = s.flatMap utf16 := by
  rw [units, List.flatMap_map]
  exact congrArg (s.flatMap ·) (funext fun c => (piece_spec c).2.1)

theorem wellFormed_str (s : List Char) : WellFormed (strTree s) := by
  intro p hp
  obtain ⟨c, -, rfl⟩ := List.mem_map.mp hp
  exact (piece_spec c).2.2

theorem string?_strTree (s : List Char) : (strTree s).value.string? = some s := string?_str (units_pieces s)

def labelTree (label : Label) : Tree :=
  object [("line", natural label.span.line), ("column", natural label.span.column),
    ("message", strTree label.message), ("is_primary", .bool label.isPrimary)]

def optionalMember (name : String) : Option Tree → List (String × Tree)
  | some t => [(name, t)]
  | none => []

def spanMembers (line column endLine endColumn : ℕ) : List (String × Tree) :=
  [("line", natural line), ("column", natural column), ("end_line", natural endLine),
    ("end_column", natural endColumn)]

def positionMembers (filePath : Option (List Char)) : Option Label → List (String × Tree)
  | some label => optionalMember "file" (filePath.map strTree) ++
    spanMembers label.span.line label.span.column label.span.line (endColumn label.span)
  | none => []

/-- A list that is left out when it is empty. -/
def listMember (name : String) (ts : List Tree) : List (String × Tree) :=
  optionalMember name (if ts = [] then none else some (array ts))

def diagnosticMembers (diag : Diagnostic) : List (String × Tree) :=
  [("severity", .str (diag.severity.asStr.toList.map Piece.plain))] ++
  optionalMember "code" (diag.code.map strTree) ++
  [("message", strTree diag.message)] ++
  positionMembers diag.filePath diag.primary ++
  listMember "labels" (diag.labels.map labelTree) ++
  listMember "notes" (diag.notes.map strTree) ++
  optionalMember "help" (diag.help.map strTree) ++
  optionalMember "lint" (diag.lint.map strTree)

def diagnosticTree (diag : Diagnostic) : Tree := object (diagnosticMembers diag)

def documentTree (diagnostics : List Diagnostic) : Tree :=
  object [("version", .num ['1']), ("error_count", natural (errorCount diagnostics)),
    ("diagnostics", array (diagnostics.map diagnosticTree))]

theorem compact_label (label : Label) : compact (labelTree label) = labelToJson label := by
  have hprimary : compact (.bool label.isPrimary) = if label.isPrimary then "true".toList else "false".toList := by
    cases label.isPrimary <;> rfl
  rw [labelTree, compact_object, labelToJson, ← hprimary, ← compact_str]
  simp only [List.map_cons, List.map_nil, compact_natural]

theorem compact_severity (severity : Severity) :
    compact (.str (severity.asStr.toList.map Piece.plain)) = '"' :: (severity.asStr.toList ++ ['"']) := by
  change quoted (text (severity.asStr.toList.map Piece.plain)) = _
  rw [JsonParser.text_plain, quoted]

/-- A member as it is written. -/
def written (f : String × Tree) : List Char := field f.1 (compact f.2)

theorem written_optional (name : String) (value : Option (List Char)) :
    (optionalMember name (value.map strTree)).map written = optionalField name value := by
  cases value with
  | none => rfl
  | some value => exact congrArg (fun t => [field name t]) (compact_str value)

theorem written_span (line column endLine endColumn : ℕ) :
    (spanMembers line column endLine endColumn).map written = spanFields line column endLine endColumn := by
  simp only [spanMembers, spanFields, List.map_cons, List.map_nil, written, compact_natural]

theorem written_position (filePath : Option (List Char)) (label : Option Label) :
    (positionMembers filePath label).map written = positionFields filePath label := by
  cases label with
  | none => rfl
  | some label => rw [positionMembers, positionFields, List.map_append, written_optional, written_span]

theorem written_list (name : String) {α : Type} (items : List α) (tree : α → Tree) (f : α → List Char)
    (h : ∀ a, compact (tree a) = f a) : (listMember name (items.map tree)).map written =
      if items = [] then [] else [field name ('[' :: (List.intercalate [','] (items.map f) ++ [']']))] := by
  by_cases hempty : items = []
  · rw [hempty]
    rfl
  · have htexts : (items.map tree).map compact = items.map f := by
      rw [List.map_map]
      exact List.map_congr_left fun a _ => h a
    have hmembers : items.map tree ≠ [] := fun h => hempty (List.map_eq_nil_iff.mp h)
    rw [listMember, if_neg hmembers, if_neg hempty, ← htexts, ← compact_array]
    rfl

theorem written_members (diag : Diagnostic) : (diagnosticMembers diag).map written = diagnosticFields diag := by
  have hseverity : [("severity", Node.str (diag.severity.asStr.toList.map Piece.plain))].map written =
      [field "severity" ('"' :: (diag.severity.asStr.toList ++ ['"']))] :=
    congrArg (fun t => [field "severity" t]) (compact_severity diag.severity)
  have hmessage : [("message", strTree diag.message)].map written = [field "message" (quoteText diag.message)] :=
    congrArg (fun t => [field "message" t]) (compact_str diag.message)
  simp only [diagnosticMembers, List.map_append, hseverity, hmessage, written_optional, written_position,
    written_list _ _ _ _ compact_label, written_list _ _ _ _ compact_str, diagnosticFields]

theorem compact_diagnostic (diag : Diagnostic) : compact (diagnosticTree diag) = diagnosticToJson diag := by
  rw [diagnosticTree, compact_object, diagnosticToJson, ← written_members]
  rfl

theorem compact_document (diagnostics : List Diagnostic) :
    compact (documentTree diagnostics) = diagnosticsToJson diagnostics := by
  have hitems : (diagnostics.map diagnosticTree).map compact = diagnostics.map diagnosticToJson := by
    rw [List.map_map]
    exact List.map_congr_left fun diag _ => compact_diagnostic diag
  have hversion : compact (.num ['1']) = ['1'] := rfl
  rw [documentTree, compact_object, diagnosticsToJson, ← hitems, ← compact_array]
  simp only [List.map_cons, List.map_nil, compact_natural, hversion]

/-! ### The document is valid -/

/-- A member with a plain name and a well-formed value. -/
def Sound (f : String × Tree) : Prop := (∀ c ∈ f.1.toList, Unescaped c) ∧ WellFormed f.2

theorem sound_optional {name : String} {o : Option Tree} (hname : ∀ c ∈ name.toList, Unescaped c)
    (h : ∀ t ∈ o, WellFormed t) : ∀ f ∈ optionalMember name o, Sound f := by
  cases o with
  | none => exact List.forall_mem_nil _
  | some t => exact List.forall_mem_singleton.mpr ⟨hname, h t rfl⟩

theorem sound_string {name : String} (hname : ∀ c ∈ name.toList, Unescaped c) (value : Option (List Char)) :
    ∀ f ∈ optionalMember name (value.map strTree), Sound f := by
  apply sound_optional hname
  intro t ht
  obtain ⟨s, -, rfl⟩ := Option.map_eq_some_iff.mp ht
  exact wellFormed_str s

theorem sound_list {name : String} (hname : ∀ c ∈ name.toList, Unescaped c) {ts : List Tree}
    (h : ∀ t ∈ ts, WellFormed t) : ∀ f ∈ listMember name ts, Sound f := by
  apply sound_optional hname
  intro t ht
  split at ht
  · cases ht
  · obtain rfl := Option.some.inj ht
    exact wellFormed_array h

theorem wellFormed_label (label : Label) : WellFormed (labelTree label) := by
  apply wellFormed_object
  simp only [List.forall_mem_cons]
  exact ⟨⟨forall_of_all (by decide), wellFormed_natural _⟩, ⟨forall_of_all (by decide), wellFormed_natural _⟩,
    ⟨forall_of_all (by decide), wellFormed_str _⟩, ⟨forall_of_all (by decide), trivial⟩, List.forall_mem_nil _⟩

theorem sound_natural (name : String) (hname : ∀ c ∈ name.toList, Unescaped c) (n : ℕ) : Sound (name, natural n) :=
  ⟨hname, wellFormed_natural n⟩

theorem sound_span (line column endLine endColumn : ℕ) :
    ∀ f ∈ spanMembers line column endLine endColumn, Sound f := by
  simp only [spanMembers, List.forall_mem_cons]
  exact ⟨sound_natural "line" (forall_of_all (by decide)) line,
    sound_natural "column" (forall_of_all (by decide)) column,
    sound_natural "end_line" (forall_of_all (by decide)) endLine,
    sound_natural "end_column" (forall_of_all (by decide)) endColumn, List.forall_mem_nil _⟩

theorem sound_position (filePath : Option (List Char)) (label : Option Label) :
    ∀ f ∈ positionMembers filePath label, Sound f := by
  cases label with
  | none => exact List.forall_mem_nil _
  | some label =>
    exact List.forall_mem_append.mpr ⟨sound_string (forall_of_all (by decide)) filePath, sound_span _ _ _ _⟩

theorem wellFormed_severity (severity : Severity) : WellFormed (.str (severity.asStr.toList.map Piece.plain)) := by
  apply plain_ok
  cases severity <;> exact forall_of_all (by decide)

theorem wellFormed_diagnostic (diag : Diagnostic) : WellFormed (diagnosticTree diag) := by
  have hlabels : ∀ t ∈ diag.labels.map labelTree, WellFormed t :=
    List.forall_mem_map.mpr fun label _ => wellFormed_label label
  have hnotes : ∀ t ∈ diag.notes.map strTree, WellFormed t :=
    List.forall_mem_map.mpr fun note _ => wellFormed_str note
  apply wellFormed_object
  simp only [diagnosticMembers, List.forall_mem_append, List.forall_mem_singleton]
  exact ⟨⟨⟨⟨⟨⟨⟨⟨forall_of_all (by decide), wellFormed_severity _⟩, sound_string (forall_of_all (by decide)) _⟩,
    ⟨forall_of_all (by decide), wellFormed_str _⟩⟩, sound_position _ _⟩,
    sound_list (forall_of_all (by decide)) hlabels⟩, sound_list (forall_of_all (by decide)) hnotes⟩,
    sound_string (forall_of_all (by decide)) _⟩, sound_string (forall_of_all (by decide)) _⟩

theorem wellFormed_document (diagnostics : List Diagnostic) : WellFormed (documentTree diagnostics) := by
  have hitems : ∀ t ∈ diagnostics.map diagnosticTree, WellFormed t :=
    List.forall_mem_map.mpr fun diag _ => wellFormed_diagnostic diag
  apply wellFormed_object
  simp only [List.forall_mem_cons]
  exact ⟨⟨forall_of_all (by decide), isNumber_one⟩, ⟨forall_of_all (by decide), wellFormed_natural _⟩,
    ⟨forall_of_all (by decide), wellFormed_array hitems⟩, List.forall_mem_nil _⟩

/-! ### What is read back -/

theorem find_optional (name key : String) (o : Option Tree) :
    (optionalMember name o).find? (·.1 = key) = if name = key then o.map fun t => (name, t) else none := by
  cases o with
  | none => simp [optionalMember]
  | some t => by_cases h : name = key <;> simp [optionalMember, h]

theorem find_position {key : String} (h : key ∉ ["file", "line", "column", "end_line", "end_column"])
    (filePath : Option (List Char)) (label : Option Label) :
    (positionMembers filePath label).find? (·.1 = key) = none := by
  simp only [List.mem_cons, List.not_mem_nil, or_false, not_or] at h
  obtain ⟨hfile, hline, hcolumn, hendLine, hendColumn⟩ := h
  cases label with
  | none => rfl
  | some label =>
    rw [positionMembers, List.find?_append, find_optional, if_neg (Ne.symm hfile)]
    simp [spanMembers, Ne.symm hline, Ne.symm hcolumn, Ne.symm hendLine, Ne.symm hendColumn]

theorem readLabel_tree (label : Label) : readLabel (labelTree label).value = some label.report := by
  have hmember : ∀ name, (labelTree label).value.member? name = _ := fun name => member?_object name _
  have hmessage : (labelTree label).value.required "message" Node.string? = some label.message :=
    required_of_member (hmember "message") (string?_strTree _)
  have hline : (labelTree label).value.required "line" Node.natural? = some label.span.line :=
    required_of_member (hmember "line") (natural?_natural _)
  have hcolumn : (labelTree label).value.required "column" Node.natural? = some label.span.column :=
    required_of_member (hmember "column") (natural?_natural _)
  have hprimary : (labelTree label).value.required "is_primary" Node.bool? = some label.isPrimary :=
    required_of_member (hmember "is_primary") rfl
  rw [readLabel, hmessage, hline, hcolumn, hprimary]
  rfl

theorem readSeverity_asStr (severity : Severity) :
    readSeverity (Node.str (severity.asStr.toList.map Piece.plain)).value = some severity := by
  have hstring : (Node.str (severity.asStr.toList.map Piece.plain)).value.string? = some severity.asStr.toList := by
    apply string?_str
    rw [units, List.flatMap_map]
    rfl
  rw [readSeverity, hstring]
  cases severity <;> rfl

/-- The members of a diagnostic other than its position. -/
theorem member?_diagnostic {key : String} (h : key ∉ ["file", "line", "column", "end_line", "end_column"])
    (diag : Diagnostic) : (diagnosticTree diag).value.member? key =
      ((((((([("severity", Node.str (diag.severity.asStr.toList.map Piece.plain))].find? (·.1 = key)).or
        (if "code" = key then (diag.code.map strTree).map fun t => ("code", t) else none)).or
        ([("message", strTree diag.message)].find? (·.1 = key))).or
        ((listMember "labels" (diag.labels.map labelTree)).find? (·.1 = key))).or
        ((listMember "notes" (diag.notes.map strTree)).find? (·.1 = key))).or
        (if "help" = key then (diag.help.map strTree).map fun t => ("help", t) else none)).or
        (if "lint" = key then (diag.lint.map strTree).map fun t => ("lint", t) else none)).map (·.2.value) := by
  rw [diagnosticTree, member?_object, diagnosticMembers]
  simp only [List.find?_append, find_position h, find_optional, Option.or_none]

/-- A list that is left out when it is empty is read as one. -/
theorem optional_list {α β : Type} {name : String} {v : Value} {items : List α} {tree : α → Tree}
    {f : Value → Option β} {r : α → β} (h : v.member? name =
      (if items.map tree = [] then none else some (array (items.map tree))).map Node.value)
    (hf : ∀ a, f (tree a).value = some (r a)) :
    ∃ o, v.optional name (Node.array? f) = some o ∧ o.getD [] = items.map r := by
  rw [Node.optional, h]
  by_cases hempty : items = []
  · rw [hempty]
    exact ⟨none, rfl, rfl⟩
  · have hitems : items.map tree ≠ [] := fun h => hempty (List.map_eq_nil_iff.mp h)
    rw [if_neg hitems]
    exact ⟨some (items.map r), congrArg (Option.map some) (each_ofList f tree r hf items), rfl⟩

theorem readDiagnostic_tree (diag : Diagnostic) : readDiagnostic (diagnosticTree diag).value = some diag.report := by
  have hseverity : (diagnosticTree diag).value.member? "severity" =
      some (Node.str (diag.severity.asStr.toList.map Piece.plain)).value := by
    rw [member?_diagnostic (by decide)]
    simp
  have hcode : (diagnosticTree diag).value.member? "code" = diag.code.map fun s => (strTree s).value := by
    rw [member?_diagnostic (by decide)]
    simp [listMember, find_optional, Function.comp_def]
  have hmessage : (diagnosticTree diag).value.member? "message" = some (strTree diag.message).value := by
    rw [member?_diagnostic (by decide)]
    simp
  have hnotes : (diagnosticTree diag).value.member? "notes" =
      (if diag.notes.map strTree = [] then none else some (array (diag.notes.map strTree))).map Node.value := by
    rw [member?_diagnostic (by decide)]
    simp [listMember, find_optional, Function.comp_def]
  have hlabels : (diagnosticTree diag).value.member? "labels" =
      (if diag.labels.map labelTree = [] then none else some (array (diag.labels.map labelTree))).map Node.value := by
    rw [member?_diagnostic (by decide)]
    simp [listMember, find_optional, Function.comp_def]
  have hhelp : (diagnosticTree diag).value.member? "help" = diag.help.map fun s => (strTree s).value := by
    rw [member?_diagnostic (by decide)]
    simp [listMember, find_optional, Function.comp_def]
  have hlint : (diagnosticTree diag).value.member? "lint" = diag.lint.map fun s => (strTree s).value := by
    rw [member?_diagnostic (by decide)]
    simp [listMember, find_optional, Function.comp_def]
  obtain ⟨notes, hreadNotes, hsameNotes⟩ := optional_list hnotes string?_strTree
  obtain ⟨labels, hreadLabels, hsameLabels⟩ := optional_list hlabels readLabel_tree
  rw [readDiagnostic, required_of_member hseverity (readSeverity_asStr _), optional_of_member hcode string?_strTree,
    required_of_member hmessage (string?_strTree _), hreadNotes, optional_of_member hhelp string?_strTree,
    optional_of_member hlint string?_strTree, hreadLabels]
  simp only [Option.map_id', List.map_id'] at *
  simp only [Option.bind_eq_bind, Option.bind_some, hsameNotes, hsameLabels]
  rfl

theorem readDocument_tree (diagnostics : List Diagnostic) :
    readDocument (documentTree diagnostics).value =
      some (errorCount diagnostics, diagnostics.map Diagnostic.report) := by
  have hmember : ∀ name, (documentTree diagnostics).value.member? name = _ := fun name => member?_object name _
  have hcount : (documentTree diagnostics).value.required "error_count" Node.natural? =
      some (errorCount diagnostics) :=
    required_of_member (hmember "error_count") (natural?_natural _)
  have hreports : (documentTree diagnostics).value.required "diagnostics" (Node.array? readDiagnostic) =
      some (diagnostics.map Diagnostic.report) :=
    required_of_member (hmember "diagnostics") (each_ofList readDiagnostic diagnosticTree Diagnostic.report
      readDiagnostic_tree diagnostics)
  rw [readDocument, hcount, hreports]
  rfl

/-- A batch of diagnostics is written as a valid document, and reading the document gives them back. -/
theorem diagnosticsToJson_read (diagnostics : List Diagnostic) :
    IsJson (diagnosticsToJson diagnostics) ∧ ∀ v, Denotes (diagnosticsToJson diagnostics) v →
      readDocument v = some (errorCount diagnostics, diagnostics.map Diagnostic.report) := by
  have htext := text_compact (wellFormed_document diagnostics)
  rw [compact_document] at htext
  constructor
  · exact ⟨_, htext⟩
  · intro v hv
    rw [denotes_unique hv ⟨_, htext, rfl⟩]
    exact readDocument_tree diagnostics

end Neutron.Diag
