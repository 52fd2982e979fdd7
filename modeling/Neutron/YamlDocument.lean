import Neutron.DocumentText

/-!
# The YAML parser's texts

`yaml.parse` reads lines, with one level of nesting below a key without a value, and flow collections inside a
value. Its text is the rendering of the tree of what it inserts.
-/

namespace Neutron.Yaml

open RuntimeText DocumentText Json

def splitFlowSequence (s : List Char) : List (List Char) := splitEntriesLoop ['"', '\x27'] [] 0 false false s

/-- `starts_with` and `ends_with` two marks, around something. -/
def Between (first last : Char) (val : List Char) : Prop :=
  val.head? = some first ∧ val.getLast? = some last ∧ 2 ≤ val.length

instance (first last : Char) (val : List Char) : Decidable (Between first last val) :=
  inferInstanceAs (Decidable (_ ∧ _ ∧ _))

def inner (val : List Char) : List Char := (val.drop 1).dropLast

def escapeValue (val : List Char) : List Char :=
  replaceChar '\n' ['\\', 'n'] (replaceChar '"' ['\\', '"'] (replaceChar '\\' ['\\', '\\'] val))

theorem length_inner {first last : Char} {text : List Char} (h : Between first last (trim text)) :
    (trim (inner (trim text))).length < text.length := by
  have htrim := length_trim_le (inner (trim text))
  have hle := length_trim_le text
  have hlong := h.2.2
  have hinner : (inner (trim text)).length = (trim text).length - 1 - 1 := by
    rw [inner, List.length_dropLast, List.length_drop]
  omega

theorem length_flow {first last : Char} {text s : List Char} (h : Between first last (trim text))
    (hs : s ∈ splitFlowSequence (trim (inner (trim text)))) : s.length < text.length := by
  have hle := length_of_mem_splitEntriesLoop hs
  have hlt := length_inner h
  rw [List.length_nil] at hle
  omega

variable (renderFloat : List Char → Option (List Char))

/-- The last argument of the parse functions reads and prints a floating point number. -/
def parseYamlValue (text : List Char) : List Char :=
  let val := trim text
  if val = [] then ['"', '"']
  else if Between '"' '"' val ∨ Between '\x27' '\x27' val then '"' :: (escapeValue (inner val) ++ ['"'])
  else if val = ['t', 'r', 'u', 'e'] then ['t', 'r', 'u', 'e']
  else if val = ['f', 'a', 'l', 's', 'e'] then ['f', 'a', 'l', 's', 'e']
  else if val = ['n', 'u', 'l', 'l'] ∨ val = ['~'] then ['n', 'u', 'l', 'l']
  else match parseI64 val with
    | some n => (toString n).toList
    | none =>
      match renderFloat val with
      | some f => f
      | none =>
        if _hseq : Between '[' ']' val then
          if trim (inner val) = [] then ['[', ']']
          else
            let items := (splitFlowSequence (trim (inner val))).attach.map fun ⟨s, _hs⟩ => parseYamlValue s
            '[' :: (List.intercalate [','] items ++ [']'])
        else if _hmap : Between '{' '}' val then
          if trim (inner val) = [] then ['{', '}']
          else
            let pairs := (splitFlowSequence (trim (inner val))).attach.map fun ⟨s, _hs⟩ =>
              match _hcolon : splitColon s with
              | some (k, v) => '"' :: (trim k ++ '"' :: ':' :: parseYamlValue (trim v))
              | none => '"' :: (trim s ++ ['"', ':', 'n', 'u', 'l', 'l'])
            '{' :: (List.intercalate [','] pairs ++ ['}'])
        else '"' :: (escapeValue val ++ ['"'])
termination_by text.length
decreasing_by
  · exact length_flow _hseq _hs
  · exact Nat.lt_of_le_of_lt (length_trim_le v) (Nat.lt_trans (length_splitColon _hcolon) (length_flow _hmap _hs))

/-- What the value's text is put together from. -/
def valueNode (text : List Char) : Node Inserted :=
  let val := trim text
  if val = [] then .str (.raw [])
  else if Between '"' '"' val ∨ Between '\x27' '\x27' val then .str (.escaped (inner val))
  else if val = ['t', 'r', 'u', 'e'] then .bool true
  else if val = ['f', 'a', 'l', 's', 'e'] then .bool false
  else if val = ['n', 'u', 'l', 'l'] ∨ val = ['~'] then .null
  else match parseI64 val with
    | some n => .num (toString n).toList
    | none =>
      match renderFloat val with
      | some f => .num f
      | none =>
        if _hseq : Between '[' ']' val then
          .arr (.ofList ((splitFlowSequence (trim (inner val))).attach.map fun ⟨s, _hs⟩ => valueNode s))
        else if _hmap : Between '{' '}' val then
          .obj (.ofList ((splitFlowSequence (trim (inner val))).attach.map fun ⟨s, _hs⟩ =>
            match _hcolon : splitColon s with
            | some (k, v) => (.raw (trim k), valueNode (trim v))
            | none => (.raw (trim s), .null)))
        else .str (.escaped val)
termination_by text.length
decreasing_by
  · exact length_flow _hseq _hs
  · exact Nat.lt_of_le_of_lt (length_trim_le v) (Nat.lt_trans (length_splitColon _hcolon) (length_flow _hmap _hs))

theorem escapeValue_eq (val : List Char) : escapeValue val = val.flatMap (escapeBreaks ['\n']) := by
  rw [escapeValue, replaceChar.eq_1 '\\', replaceChar_flatMap, replaceChar_flatMap]
  refine congrArg (val.flatMap ·) (funext fun c => ?_)
  rw [escapeBreaks]
  by_cases hbackslash : c = '\\'
  · rw [if_pos hbackslash, if_pos hbackslash]
    rfl
  rw [if_neg hbackslash, if_neg hbackslash]
  by_cases hquote : c = '"'
  · rw [hquote]
    rfl
  rw [replaceChar_singleton hquote, if_neg hquote]
  by_cases hnewline : c = '\n'
  · rw [hnewline]
    rfl
  rw [replaceChar_singleton hnewline, if_neg fun hmem => hnewline (List.mem_singleton.mp hmem)]

theorem splitFlowSequence_nil : splitFlowSequence [] = [] := rfl

theorem parseYamlValue_eq (text : List Char) :
    parseYamlValue renderFloat text = (valueNode renderFloat text).render (Inserted.text ['\n']) := by
  induction hn : text.length using Nat.strongRecOn generalizing text with
  | _ n ih =>
    have hstr : ∀ s, '"' :: (escapeValue s ++ ['"']) = (Node.str (.escaped s)).render (Inserted.text ['\n']) := by
      intro s
      rw [escapeValue_eq]
      rfl
    rw [parseYamlValue, valueNode]
    dsimp only
    by_cases hempty : trim text = []
    · rw [if_pos hempty, if_pos hempty]
      rfl
    rw [if_neg hempty, if_neg hempty]
    by_cases hquoted : Between '"' '"' (trim text) ∨ Between '\x27' '\x27' (trim text)
    · rw [if_pos hquoted, if_pos hquoted]
      exact hstr _
    rw [if_neg hquoted, if_neg hquoted]
    by_cases htrue : trim text = ['t', 'r', 'u', 'e']
    · rw [if_pos htrue, if_pos htrue]
      rfl
    rw [if_neg htrue, if_neg htrue]
    by_cases hfalse : trim text = ['f', 'a', 'l', 's', 'e']
    · rw [if_pos hfalse, if_pos hfalse]
      rfl
    rw [if_neg hfalse, if_neg hfalse]
    by_cases hnull : trim text = ['n', 'u', 'l', 'l'] ∨ trim text = ['~']
    · rw [if_pos hnull, if_pos hnull]
      rfl
    rw [if_neg hnull, if_neg hnull]
    cases parseI64 (trim text) with
    | some m => rfl
    | none =>
      cases renderFloat (trim text) with
      | some f => rfl
      | none =>
        dsimp only
        by_cases hseq : Between '[' ']' (trim text)
        · rw [dif_pos hseq, dif_pos hseq, Node.render, renders_nodes, List.map_map]
          have hitems : ((splitFlowSequence (trim (inner (trim text)))).attach.map fun x =>
              parseYamlValue renderFloat x.1) = (splitFlowSequence (trim (inner (trim text)))).attach.map
                ((fun t => t.render (Inserted.text ['\n'])) ∘ fun x => valueNode renderFloat x.1) :=
            List.map_congr_left fun x _ => ih _ (hn ▸ length_flow hseq x.2) _ rfl
          split_ifs with hinner
          · rw [← hitems, hinner]
            rfl
          · rw [← hitems]
        · rw [dif_neg hseq, dif_neg hseq]
          by_cases hmap : Between '{' '}' (trim text)
          · rw [dif_pos hmap, dif_pos hmap, Node.render, renders_members, List.map_map]
            split_ifs with hinner
            · have hnone : (splitFlowSequence (trim (inner (trim text)))).attach = [] := by
                rw [List.attach_eq_nil_iff, hinner, splitFlowSequence_nil]
              rw [hnone]
              rfl
            · refine congrArg (fun pairs => '{' :: (List.intercalate [','] pairs ++ ['}'])) ?_
              refine List.map_congr_left fun x _ => ?_
              have hflow := length_flow hmap x.2
              dsimp only [Function.comp]
              split
              · rename_i k v hcolon
                have hlt : (trim v).length < n :=
                  hn ▸ Nat.lt_of_le_of_lt (length_trim_le v) (Nat.lt_trans (length_splitColon hcolon) hflow)
                rw [ih _ hlt _ rfl]
                simp [Inserted.text, quoted]
              · simp [Inserted.text, quoted, Node.render]
          · rw [dif_neg hmap, dif_neg hmap]
            exact hstr _

/-! ## Lines -/

def countIndent (line : List Char) : ℕ := (line.takeWhile fun c => c = ' ' ∨ c = '\t').length

/-- A blank line or a comment. -/
def Skipped (line : List Char) : Prop := trim line = [] ∨ (trim line).head? = some '#'

instance (line : List Char) : Decidable (Skipped line) := inferInstanceAs (Decidable (_ ∨ _))

/-- What is below a key. -/
inductive Block where
  | scalar (val : List Char)
  | items (vals : List (List Char))
  | fields (fs : List (List Char × List Char))

/-- The lines nested below one of indentation `base`, and the lines after them. -/
def takeNested (base : ℕ) : List (List Char) → List (List Char) × List (List Char)
  | [] => ([], [])
  | line :: rest =>
    if Skipped line then takeNested base rest
    else if countIndent line ≤ base then ([], line :: rest)
    else (line :: (takeNested base rest).1, (takeNested base rest).2)

def stripDash : List Char → Option (List Char)
  | '-' :: ' ' :: rest => some rest
  | _ => none

/-- What nested lines say; no lines are an object without fields. -/
def nestedBlock (nested : List (List Char)) : Block :=
  if (nested.head?.bind fun line => stripDash (trim line)).isSome then
    .items (nested.filterMap fun line => stripDash (trim line))
  else .fields (nested.filterMap fun line => (splitColon (trim line)).map fun (k, v) => (trim k, trim v))

theorem length_takeNested (base : ℕ) (lines : List (List Char)) : (takeNested base lines).2.length ≤ lines.length := by
  induction lines with
  | nil => exact Nat.le_refl 0
  | cons line rest ih =>
    rw [takeNested]
    split_ifs
    · exact Nat.le_succ_of_le ih
    · exact Nat.le_refl _
    · exact Nat.le_succ_of_le ih

/-- The loop of `ntsc_yaml_parse` over the lines: the keys with what is below them. -/
def yamlBlocks : List (List Char) → Except String (List (List Char × Block))
  | [] => .ok []
  | line :: rest =>
    if Skipped line then yamlBlocks rest
    else if (stripDash (trim line)).isSome ∨ trim line = ['-'] then
      .error "yaml.parse: top-level sequences are not supported, use inline flow"
    else
      match splitColon (trim line) with
      | none => yamlBlocks rest
      | some (k, v) =>
        if trim v = [] then
          (yamlBlocks (takeNested (countIndent line) rest).2).map fun blocks =>
            (trim k, nestedBlock (takeNested (countIndent line) rest).1) :: blocks
        else (yamlBlocks rest).map fun blocks => (trim k, .scalar (trim v)) :: blocks
termination_by lines => lines.length
decreasing_by
  · exact Nat.lt_succ_self _
  · exact Nat.lt_succ_self _
  · exact Nat.lt_succ_of_le (length_takeNested _ _)
  · exact Nat.lt_succ_self _

def fieldText (nv : List Char) : List Char := if nv = [] then ['{', '}'] else parseYamlValue renderFloat nv

def blockText : Block → List Char
  | .scalar val => parseYamlValue renderFloat val
  | .items vals => '[' :: (List.intercalate [','] (vals.map (parseYamlValue renderFloat)) ++ [']'])
  | .fields fs =>
    '{' :: (List.intercalate [','] (fs.map fun (nk, nv) => '"' :: (nk ++ '"' :: ':' :: fieldText renderFloat nv)) ++ ['}'])

def ntscYamlParse (s : List Char) : Except String (List Char) :=
  (yamlBlocks (strLines (unescape s))).map fun blocks =>
    let entries := blocks.map fun (key, block) => '"' :: (key ++ '"' :: ':' :: blockText renderFloat block)
    '{' :: (List.intercalate [','] entries ++ ['}'])

/-! ## The tree of a document -/

def fieldNode (nv : List Char) : Node Inserted := if nv = [] then .obj .nil else valueNode renderFloat nv

def blockNode : Block → Node Inserted
  | .scalar val => valueNode renderFloat val
  | .items vals => .arr (.ofList (vals.map (valueNode renderFloat)))
  | .fields fs => .obj (.ofList (fs.map fun (nk, nv) => (.raw nk, fieldNode renderFloat nv)))

def documentNode (blocks : List (List Char × Block)) : Node Inserted :=
  .obj (.ofList (blocks.map fun (key, block) => (.raw key, blockNode renderFloat block)))

theorem member_text (key : List Char) (t : Node Inserted) :
    Inserted.text ['\n'] (.raw key) ++ ':' :: t.render (Inserted.text ['\n']) =
      '"' :: (key ++ '"' :: ':' :: t.render (Inserted.text ['\n'])) := by
  rw [Inserted.text, quoted, List.cons_append, List.append_assoc]
  rfl

theorem blockText_eq (block : Block) :
    blockText renderFloat block = (blockNode renderFloat block).render (Inserted.text ['\n']) := by
  cases block with
  | scalar val => exact parseYamlValue_eq renderFloat val
  | items vals =>
    rw [blockNode, Node.render, renders_nodes, List.map_map, blockText]
    refine congrArg (fun items => '[' :: (List.intercalate [','] items ++ [']'])) ?_
    exact List.map_congr_left fun val _ => parseYamlValue_eq renderFloat val
  | fields fs =>
    rw [blockNode, Node.render, renders_members, List.map_map, blockText]
    refine congrArg (fun pairs => '{' :: (List.intercalate [','] pairs ++ ['}'])) ?_
    refine List.map_congr_left fun f _ => ?_
    have hfield : fieldText renderFloat f.2 = (fieldNode renderFloat f.2).render (Inserted.text ['\n']) := by
      rw [fieldText, fieldNode]
      split_ifs
      · rfl
      · exact parseYamlValue_eq renderFloat f.2
    exact (congrArg (fun x => '"' :: (f.1 ++ '"' :: ':' :: x)) hfield).trans (member_text f.1 _).symm

/-- The text returned renders the document's tree. -/
theorem ntscYamlParse_eq (s : List Char) :
    ntscYamlParse renderFloat s = (yamlBlocks (strLines (unescape s))).map fun blocks =>
      (documentNode renderFloat blocks).render (Inserted.text ['\n']) := by
  refine congrArg (fun f => (yamlBlocks (strLines (unescape s))).map f) (funext fun blocks => ?_)
  rw [documentNode, Node.render, renders_members, List.map_map]
  refine congrArg (fun pairs => '{' :: (List.intercalate [','] pairs ++ ['}'])) ?_
  refine List.map_congr_left fun b _ => ?_
  exact (congrArg (fun x => '"' :: (b.1 ++ '"' :: ':' :: x)) (blockText_eq renderFloat b.2)).trans
    (member_text b.1 _).symm

/-- Every key may stand between quotes, no string has a control character but newlines, and every number
printed is one of JSON. -/
def Clean (s : List Char) : Prop :=
  ∀ blocks, yamlBlocks (strLines (unescape s)) = .ok blocks →
    (documentNode renderFloat blocks).All (Inserted.Clean ['\n']) IsNumber

theorem isJson_ntscYamlParse {s out : List Char} (hclean : Clean renderFloat s)
    (h : ntscYamlParse renderFloat s = .ok out) : IsJson out := by
  rw [ntscYamlParse_eq] at h
  cases hblocks : yamlBlocks (strLines (unescape s)) with
  | error e =>
    rw [hblocks] at h
    exact absurd h (by simp [Except.map])
  | ok blocks =>
    rw [hblocks] at h
    obtain rfl := Except.ok.inj h
    exact isJson_inserted (hclean blocks hblocks)

end Neutron.Yaml
