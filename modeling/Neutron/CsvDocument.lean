import Neutron.CsvRows
import Neutron.DocumentText

/-!
# The CSV parser's texts

`csv.parse` writes an object for each row, with the headers as they were read between the quotes of its keys.
-/

namespace Neutron.Csv

open RuntimeText DocumentText Json

variable (renderFloat : List Char → Option (List Char))

def valueNode (val : List Char) : Node Inserted :=
  if val = [] then .str (.raw [])
  else if val = ['t', 'r', 'u', 'e'] then .bool true
  else if val = ['f', 'a', 'l', 's', 'e'] then .bool false
  else if val = ['n', 'u', 'l', 'l'] then .null
  else match parseI64 val with
    | some n => .num (toString n).toList
    | none =>
      match renderFloat val with
      | some f => .num f
      | none => .str (.escaped val)

def rowNode (headers fields : List (List Char)) : Node Inserted :=
  .obj (.ofList (headers.zipIdx.map fun (header, i) =>
    (.raw header, valueNode renderFloat (((fields[i]?).map trim).getD []))))

/-- The tree of a document, given its lines. -/
def documentNode : List (List Char) → Node Inserted
  | [] => .arr .nil
  | first :: rest => .arr (.ofList (rest.map fun line => rowNode renderFloat (parseCsvRow first) (parseCsvRow line)))

theorem escaped_eq (val : List Char) :
    replaceChar '\r' ['\\', 'r'] (replaceChar '\n' ['\\', 'n'] (replaceChar '"' ['\\', '"']
      (replaceChar '\\' ['\\', '\\'] val))) = val.flatMap (escapeBreaks ['\n', '\r']) := by
  rw [replaceChar.eq_1 '\\', replaceChar_flatMap, replaceChar_flatMap, replaceChar_flatMap]
  refine congrArg (val.flatMap ·) (funext fun c => ?_)
  rw [escapeBreaks]
  by_cases hbackslash : c = '\\'
  · rw [if_pos hbackslash, if_pos hbackslash]
    rfl
  rw [if_neg hbackslash, if_neg hbackslash]
  by_cases hquote : c = '"'
  · rw [hquote]
    rfl
  rw [replaceChar_singleton hquote, if_neg hquote]
  by_cases hnewline : c = '\n'
  · rw [hnewline]
    rfl
  rw [replaceChar_singleton hnewline]
  by_cases hreturn : c = '\r'
  · rw [hreturn]
    rfl
  rw [replaceChar_singleton hreturn, if_neg (by simp [hnewline, hreturn])]

theorem csvValue_eq (val : List Char) :
    csvValue val renderFloat = (valueNode renderFloat val).render (Inserted.text ['\n', '\r']) := by
  rw [csvValue, valueNode]
  by_cases hempty : val = []
  · rw [if_pos hempty, if_pos hempty]
    rfl
  rw [if_neg hempty, if_neg hempty]
  by_cases htrue : val = ['t', 'r', 'u', 'e']
  · rw [if_pos (.inl htrue), if_pos htrue, htrue]
    rfl
  by_cases hfalse : val = ['f', 'a', 'l', 's', 'e']
  · rw [if_pos (.inr (.inl hfalse)), if_neg htrue, if_pos hfalse, hfalse]
    rfl
  by_cases hnull : val = ['n', 'u', 'l', 'l']
  · rw [if_pos (.inr (.inr hnull)), if_neg htrue, if_neg hfalse, if_pos hnull, hnull]
    rfl
  rw [if_neg (by simp [htrue, hfalse, hnull]), if_neg htrue, if_neg hfalse, if_neg hnull]
  cases parseI64 val with
  | some n => rfl
  | none =>
    cases renderFloat val with
    | some f => rfl
    | none =>
      dsimp only
      rw [escaped_eq]
      rfl

theorem csvObject_eq (headers fields : List (List Char)) :
    csvObject headers fields renderFloat =
      (rowNode renderFloat headers fields).render (Inserted.text ['\n', '\r']) := by
  rw [rowNode, Node.render, renders_members, List.map_map, csvObject]
  refine congrArg (fun pairs => '{' :: (List.intercalate [','] pairs ++ ['}'])) ?_
  refine List.map_congr_left fun header _ => ?_
  dsimp only [Function.comp]
  rw [csvValue_eq]
  simp [Inserted.text, quoted]

/-- The text returned renders the document's tree. -/
theorem ntscCsvParse_eq (s : List Char) :
    ntscCsvParse s renderFloat = (documentNode renderFloat (csvLines s)).render (Inserted.text ['\n', '\r']) := by
  rw [ntscCsvParse]
  cases csvLines s with
  | nil => rfl
  | cons first rest =>
    rw [documentNode, Node.render, renders_nodes, List.map_map]
    refine congrArg (fun rows => '[' :: (List.intercalate [','] rows ++ [']'])) ?_
    exact List.map_congr_left fun line _ => csvObject_eq renderFloat _ _

/-- Every header of a document with rows may stand between quotes, no string has a control character but line
breaks, and every number printed is one of JSON. -/
def Clean (s : List Char) : Prop :=
  (documentNode renderFloat (csvLines s)).All (Inserted.Clean ['\n', '\r']) IsNumber

theorem isJson_ntscCsvParse {s : List Char} (h : Clean renderFloat s) : IsJson (ntscCsvParse s renderFloat) := by
  rw [ntscCsvParse_eq]
  exact isJson_inserted h

end Neutron.Csv
