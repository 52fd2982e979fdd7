import Neutron.RuntimeText
import Neutron.Utf8Bytes

/-!
# CSV rows

`csv.stringify` quotes the fields that need it; `csv.parse` cuts its input into lines and reads each line
byte by byte, every byte a character. A row of fields comes back with the bytes of its characters in their
place, and it comes back as one row when the escape pass and the cutting leave it whole.
-/

namespace Neutron.Csv

open RuntimeText

def csvEscapeField (field : List Char) : List Char :=
  if ',' ∈ field ∨ '"' ∈ field ∨ '\n' ∈ field ∨ '\r' ∈ field then
    '"' :: (replaceChar '"' ['"', '"'] field ++ ['"'])
  else field

def quote : UInt8 := 34
def comma : UInt8 := 44

/-- The loop of `parse_csv_row`, from the bytes still to read. -/
def parseCsvBytes : Bool → List Char → List UInt8 → List (List Char)
  | _, current, [] => [current]
  | true, current, b :: rest =>
    if b = quote then
      match rest with
      | [] => parseCsvBytes false current []
      | next :: rest' =>
        if next = quote then parseCsvBytes true (current ++ ['"']) rest'
        else parseCsvBytes false current (next :: rest')
    else parseCsvBytes true (current ++ [byteChar b]) rest
  | false, current, b :: rest =>
    if b = quote then parseCsvBytes true current rest
    else if b = comma then current :: parseCsvBytes false [] rest
    else parseCsvBytes false (current ++ [byteChar b]) rest

def parseCsvRow (row : List Char) : List (List Char) := parseCsvBytes false [] (utf8 row)

/-- A row as `ntsc_csv_stringify` writes it. -/
def csvRow (fields : List (List Char)) : List Char := List.intercalate [','] (fields.map csvEscapeField)

/-- What `ntsc_csv_stringify` writes for the keys of its first object and the values of all of them. -/
def csvOutput (headers : List (List Char)) (rows : List (List (List Char))) : List Char :=
  List.intercalate [','] headers ++ rows.flatMap (fun fields => '\n' :: csvRow fields) ++ ['\n']

/-- The lines `ntsc_csv_parse` reads rows from. -/
def csvLines (s : List Char) : List (List Char) :=
  let input := trim (unescape s)
  if input = [] then [] else ((strLines input).map trim).filter (· ≠ [])

/-- The value of a field. The last argument parses and prints a floating point number. -/
def csvValue (val : List Char) (renderFloat : List Char → Option (List Char)) : List Char :=
  if val = [] then ['"', '"']
  else if val = ['t', 'r', 'u', 'e'] ∨ val = ['f', 'a', 'l', 's', 'e'] ∨ val = ['n', 'u', 'l', 'l'] then val
  else match parseI64 val with
    | some n => (toString n).toList
    | none =>
      match renderFloat val with
      | some f => f
      | none =>
        let escaped := replaceChar '\r' ['\\', 'r'] (replaceChar '\n' ['\\', 'n']
          (replaceChar '"' ['\\', '"'] (replaceChar '\\' ['\\', '\\'] val)))
        '"' :: (escaped ++ ['"'])

def csvObject (headers fields : List (List Char)) (renderFloat : List Char → Option (List Char)) : List Char :=
  let pairs := headers.zipIdx.map fun (header, i) =>
    let val := ((fields[i]?).map trim).getD []
    '"' :: (header ++ ['"', ':'] ++ csvValue val renderFloat)
  '{' :: (List.intercalate [','] pairs ++ ['}'])

def ntscCsvParse (s : List Char) (renderFloat : List Char → Option (List Char)) : List Char :=
  match csvLines s with
  | [] => ['[', ']']
  | first :: rest =>
    let headers := parseCsvRow first
    '[' :: (List.intercalate [','] (rest.map fun line => csvObject headers (parseCsvRow line) renderFloat) ++ [']'])

/-! ## Fields -/

variable {current : List Char} {rest : List UInt8} {field : List Char}

theorem byte_eq_of_mem_utf8 {b : UInt8} {s : List Char} (h : b ∈ utf8 s) (hb : b.toNat < 128) :
    Char.ofNat b.toNat ∈ s := by
  obtain ⟨c, hc, hmem⟩ := List.mem_flatMap.mp h
  by_cases hascii : IsAscii c
  · rw [utf8EncodeChar_ascii hascii, List.mem_singleton] at hmem
    have heq := byteChar_ascii hascii
    rw [← hmem, byteChar] at heq
    exact heq ▸ hc
  · obtain ⟨x, y, more, hbytes, hhigh⟩ := utf8EncodeChar_other hascii
    have hle := hhigh b (hbytes ▸ hmem)
    omega

theorem parse_quoted_other {b : UInt8} (h : b ≠ quote) :
    parseCsvBytes true current (b :: rest) = parseCsvBytes true (current ++ [byteChar b]) rest := by
  cases rest with
  | nil =>
    exact (if_neg h : (if b = quote then parseCsvBytes false current []
      else parseCsvBytes true (current ++ [byteChar b]) []) = _)
  | cons next rest => rw [parseCsvBytes, if_neg h]

theorem parse_quoted_pair :
    parseCsvBytes true current (quote :: quote :: rest) = parseCsvBytes true (current ++ ['"']) rest := by
  rw [parseCsvBytes, if_pos rfl, if_pos rfl]

theorem parse_quoted_close (h : rest.head? ≠ some quote) :
    parseCsvBytes true current (quote :: rest) = parseCsvBytes false current rest := by
  cases rest with
  | nil => rfl
  | cons next rest =>
    have hne : next ≠ quote := fun heq => h (congrArg some heq)
    rw [parseCsvBytes, if_pos rfl, if_neg hne]

theorem parse_quoted_bytes (bytes : List UInt8) (h : quote ∉ bytes) :
    parseCsvBytes true current (bytes ++ rest) = parseCsvBytes true (current ++ bytes.map byteChar) rest := by
  induction bytes generalizing current with
  | nil => rw [List.map_nil, List.append_nil]; rfl
  | cons b bytes ih =>
    rw [List.mem_cons, not_or] at h
    rw [List.cons_append, parse_quoted_other (Ne.symm h.1), ih h.2, List.append_assoc]
    rfl

theorem parse_plain_bytes (bytes : List UInt8) (hquote : quote ∉ bytes) (hcomma : comma ∉ bytes) :
    parseCsvBytes false current (bytes ++ rest) = parseCsvBytes false (current ++ bytes.map byteChar) rest := by
  induction bytes generalizing current with
  | nil => rw [List.map_nil, List.append_nil]; rfl
  | cons b bytes ih =>
    rw [List.mem_cons, not_or] at hquote hcomma
    rw [List.cons_append, parseCsvBytes, if_neg (Ne.symm hquote.1), if_neg (Ne.symm hcomma.1), ih hquote.2 hcomma.2,
      List.append_assoc]
    rfl

/-- The inside of a quoted field, up to the closing quote. -/
theorem parse_quoted (field : List Char) (hrest : rest.head? ≠ some quote) :
    parseCsvBytes true current (utf8 (replaceChar '"' ['"', '"'] field) ++ quote :: rest) =
      parseCsvBytes false (current ++ bytesAsChars field) rest := by
  induction field generalizing current with
  | nil =>
    rw [bytesAsChars_nil, List.append_nil]
    exact parse_quoted_close hrest
  | cons c field ih =>
    rw [replaceChar, List.flatMap_cons]
    by_cases hc : c = '"'
    · rw [if_pos hc, hc, bytesAsChars_ascii_cons (by decide)]
      change parseCsvBytes true current (quote :: quote :: (utf8 (replaceChar '"' ['"', '"'] field) ++ quote :: rest)) = _
      rw [parse_quoted_pair, ih, List.append_assoc]
      rfl
    · have hquote : quote ∉ utf8 [c] := fun hmem => by
        have hchar := byte_eq_of_mem_utf8 hmem (by decide)
        exact hc (List.mem_singleton.mp hchar).symm
      rw [if_neg hc, utf8_append, List.append_assoc, parse_quoted_bytes _ hquote]
      have hsplit : bytesAsChars (c :: field) = (utf8 [c]).map byteChar ++ bytesAsChars field := bytesAsChars_append [c] field
      rw [hsplit, ← List.append_assoc]
      exact ih

/-- A field as it is written, up to the comma after it or the end. -/
theorem parse_escaped (field : List Char) (hrest : rest = [] ∨ ∃ more, rest = comma :: more) :
    parseCsvBytes false [] (utf8 (csvEscapeField field) ++ rest) = parseCsvBytes false (bytesAsChars field) rest := by
  rw [csvEscapeField]
  split
  · rw [utf8_ascii_cons (by decide), utf8_append]
    change parseCsvBytes false [] (quote :: (utf8 (replaceChar '"' ['"', '"'] field) ++ [quote] ++ rest)) = _
    rw [parseCsvBytes, if_pos rfl, List.append_assoc]
    refine parse_quoted field ?_
    rcases hrest with rfl | ⟨more, rfl⟩
    · exact fun h => absurd h (by simp)
    · exact fun h => absurd (Option.some.inj h) (by decide)
  · rename_i hnone
    rw [not_or, not_or] at hnone
    have hquote : quote ∉ utf8 field := fun hmem => hnone.2.1 (byte_eq_of_mem_utf8 hmem (by decide))
    have hcomma : comma ∉ utf8 field := fun hmem => hnone.1 (byte_eq_of_mem_utf8 hmem (by decide))
    exact parse_plain_bytes _ hquote hcomma

/-- A written row is read as its fields, each byte a character. -/
theorem parseCsvRow_csvRow (first : List Char) (fields : List (List Char)) :
    parseCsvRow (csvRow (first :: fields)) = (first :: fields).map bytesAsChars := by
  rw [parseCsvRow, csvRow]
  induction fields generalizing first with
  | nil =>
    have hend : parseCsvBytes false [] (utf8 (csvEscapeField first) ++ []) = _ := parse_escaped first (.inl rfl)
    rw [List.append_nil] at hend
    rw [List.map_cons, List.map_nil, List.intercalate_singleton, hend]
    rfl
  | cons second fields ih =>
    have hsep : ∀ s, utf8 ([','] ++ s) = comma :: utf8 s := fun s => utf8_append [','] s
    rw [List.map_cons, List.map_cons, List.intercalate_cons_cons, List.append_assoc, utf8_append, hsep,
      parse_escaped first (.inr ⟨_, rfl⟩)]
    exact congrArg (bytesAsChars first :: ·) (ih second)

/-! ## Rows in a document -/

theorem csvLines_eq (s : List Char) : csvLines s = nonblankLines (unescape s) := by
  rw [csvLines, ← nonblankLines_trim (unescape s)]
  by_cases h : trim (unescape s) = []
  · rw [if_pos h, h]
    rfl
  · rw [if_neg h, nonblank_strLines]

/-- The lines of a written document: those of its header, then those of each row. -/
theorem csvLines_csvOutput (headers : List (List Char)) (rows : List (List (List Char))) :
    csvLines (csvOutput headers rows) =
      csvLines (List.intercalate [','] headers) ++ rows.flatMap fun fields => csvLines (csvRow fields) := by
  have hrows : ∀ front : List Char,
      csvLines (front ++ rows.flatMap (fun fields => '\n' :: csvRow fields) ++ ['\n']) =
        csvLines front ++ rows.flatMap fun fields => csvLines (csvRow fields) := by
    induction rows with
    | nil =>
      intro front
      rw [List.flatMap_nil, List.flatMap_nil, List.append_nil, List.append_nil, csvLines_eq, csvLines_eq,
        unescape_newline, nonblankLines_newline]
      exact List.append_nil _
    | cons fields rows ih =>
      intro front
      have hfields := ih (csvRow fields)
      rw [csvLines_eq] at hfields
      rw [List.flatMap_cons, List.flatMap_cons, List.append_assoc, List.cons_append, List.cons_append, csvLines_eq,
        unescape_newline, nonblankLines_newline, ← csvLines_eq, List.append_assoc, ← List.append_assoc (csvRow fields),
        hfields]
  exact hrows _

/-- A row stays one row of the document: the line read for it is the whole row, after the escape pass. -/
def RowsStay (headers : List (List Char)) (rows : List (List (List Char))) : Prop :=
  csvLines (csvOutput headers rows) =
    csvLines (List.intercalate [','] headers) ++ rows.map fun fields => trim (unescape (csvRow fields))

theorem rowsStay_iff (headers : List (List Char)) (rows : List (List (List Char))) :
    RowsStay headers rows ↔
      ∀ fields ∈ rows, trim (unescape (csvRow fields)) ≠ [] ∧ '\n' ∉ trim (unescape (csvRow fields)) := by
  rw [RowsStay, csvLines_csvOutput, List.append_cancel_left_eq]
  constructor
  · intro h fields hmem
    have hline : trim (unescape (csvRow fields)) ∈ rows.flatMap fun fields => csvLines (csvRow fields) := by
      rw [h]
      exact List.mem_map_of_mem hmem
    obtain ⟨other, -, hother⟩ := List.mem_flatMap.mp hline
    rw [csvLines_eq] at hother
    exact of_mem_nonblankLines hother
  · intro h
    induction rows with
    | nil => rfl
    | cons fields rows ih =>
      rw [List.forall_mem_cons] at h
      rw [List.flatMap_cons, List.map_cons, ih h.2, csvLines_eq, nonblankLines_eq_singleton_iff.mpr h.1]
      rfl

/-- A row reads back as its fields if and only if they are ASCII, and rows stay rows if and only if each,
after the escape pass and trimming, is a text without a line feed. -/
theorem csv_round_trip_iff (first : List Char) (fields headers : List (List Char)) (rows : List (List (List Char))) :
    (parseCsvRow (csvRow (first :: fields)) = first :: fields ↔
      ∀ field ∈ first :: fields, ∀ c ∈ field, IsAscii c) ∧
    (RowsStay headers rows ↔
      ∀ fields ∈ rows, trim (unescape (csvRow fields)) ≠ [] ∧ '\n' ∉ trim (unescape (csvRow fields))) := by
  refine ⟨?_, rowsStay_iff headers rows⟩
  rw [parseCsvRow_csvRow]
  generalize first :: fields = all
  induction all with
  | nil => exact ⟨fun _ field hmem => absurd hmem List.not_mem_nil, fun _ => rfl⟩
  | cons field all ih => rw [List.map_cons, List.cons.injEq, bytesAsChars_eq_self_iff, ih, List.forall_mem_cons]

/-- One accented letter comes back as two characters, and a quoted line break makes two rows of one. -/
theorem csv_round_trip_fails :
    (¬ ∀ first fields, parseCsvRow (csvRow (first :: fields)) = first :: fields) ∧
      ¬ ∀ headers rows, RowsStay headers rows := by
  constructor
  · intro h
    have hrow := (parseCsvRow_csvRow ['é'] []).symm.trans (h ['é'] [])
    exact absurd hrow (by decide)
  · intro h
    have hrow := (rowsStay_iff [['a']] [[['x', '\n', 'y']]]).mp (h _ _) _ List.mem_cons_self
    exact absurd hrow.2 (by decide)

end Neutron.Csv
