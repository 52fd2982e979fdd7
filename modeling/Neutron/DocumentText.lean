import Neutron.RuntimeText
import Neutron.JsonGrammar

/-!
# Texts the document parsers put together

The CSV, YAML and TOML parsers write their result by joining texts. A string is put between quotes as it is
(a key) or after replacing some characters (a value). The tree of what was inserted where has the written text
as its rendering; the text is JSON when every insertion is one that may stand between quotes.
-/

namespace Neutron.DocumentText

open RuntimeText Json

/-- Text put between quotes. -/
inductive Inserted where
  | raw (s : List Char)
  | escaped (s : List Char)

/-- The replacements before a value is put between quotes; `breaks` are the line breaks among them. -/
def escapeBreaks (breaks : List Char) (c : Char) : List Char :=
  if c = '\\' then ['\\', '\\']
  else if c = '"' then ['\\', '"']
  else if c ∈ breaks then ['\\', if c = '\n' then 'n' else 'r']
  else [c]

def Inserted.text (breaks : List Char) : Inserted → List Char
  | .raw s => quoted s
  | .escaped s => quoted (s.flatMap (escapeBreaks breaks))

/-- A key that may stand between quotes, or a value with no control character but the line breaks. -/
def Inserted.Clean (breaks : List Char) : Inserted → Prop
  | .raw s => IsStringText s
  | .escaped s => ∀ c ∈ s, 0x20 ≤ c.toNat ∨ c ∈ breaks

/-- What an entry gives when it ends. -/
def finished (current : List Char) : List (List Char) := if trim current = [] then [] else [trim current]

/-- Entries of a text between commas outside brackets and quotes. -/
def splitEntriesLoop (quotes : List Char) (current : List Char) (depth : Int) (inStr escapeNext : Bool) :
    List Char → List (List Char)
  | [] => finished current
  | c :: s =>
    if escapeNext then splitEntriesLoop quotes (current ++ [c]) depth inStr false s
    else if c = '\\' ∧ inStr then splitEntriesLoop quotes (current ++ [c]) depth inStr true s
    else if c ∈ quotes then splitEntriesLoop quotes (current ++ [c]) depth (!inStr) false s
    else if inStr then splitEntriesLoop quotes (current ++ [c]) depth inStr false s
    else if c = '{' ∨ c = '[' then splitEntriesLoop quotes (current ++ [c]) (depth + 1) inStr false s
    else if c = '}' ∨ c = ']' then splitEntriesLoop quotes (current ++ [c]) (depth - 1) inStr false s
    else if c = ',' ∧ depth = 0 then finished current ++ splitEntriesLoop quotes [] depth inStr false s
    else splitEntriesLoop quotes (current ++ [c]) depth inStr false s

/-- `str::find(':')`, as the texts before and after the colon. -/
def splitColon (s : List Char) : Option (List Char × List Char) :=
  match s.dropWhile (· ≠ ':') with
  | [] => none
  | _ :: rest => some (s.takeWhile (· ≠ ':'), rest)

theorem splitColon_append {front : List Char} (h : ':' ∉ front) (rest : List Char) :
    splitColon (front ++ ':' :: rest) = some (front, rest) := by
  have hkeep : ∀ c ∈ front, decide (c ≠ ':') = true := fun c hc => decide_eq_true fun heq => h (heq ▸ hc)
  rw [splitColon, List.dropWhile_append_of_pos hkeep, List.takeWhile_append_of_pos hkeep,
    List.dropWhile_cons_of_neg (by decide), List.takeWhile_cons_of_neg (by decide), List.append_nil]

/-! ## Lengths -/

theorem length_trim_le (s : List Char) : (trim s).length ≤ s.length := (trim_isInfix s).length_le

theorem length_of_mem_splitEntriesLoop {quotes current s item : List Char} {depth : Int} {inStr escapeNext : Bool}
    (h : item ∈ splitEntriesLoop quotes current depth inStr escapeNext s) :
    item.length ≤ current.length + s.length := by
  have hlast : ∀ current : List Char, item ∈ finished current → item.length ≤ current.length := by
    intro current hmem
    rw [finished] at hmem
    split_ifs at hmem
    · exact absurd hmem List.not_mem_nil
    · rw [List.mem_singleton.mp hmem]
      exact length_trim_le current
  induction s generalizing current depth inStr escapeNext with
  | nil => exact hlast current h
  | cons c s ih =>
    have hstep : ∀ {depth : Int} {inStr escapeNext : Bool},
        item ∈ splitEntriesLoop quotes (current ++ [c]) depth inStr escapeNext s →
        item.length ≤ current.length + (c :: s).length := by
      intro depth inStr escapeNext hmem
      have hle := ih hmem
      rw [List.length_append, List.length_singleton] at hle
      rw [List.length_cons]
      omega
    rw [splitEntriesLoop] at h
    split_ifs at h
    · exact hstep h
    · exact hstep h
    · exact hstep h
    · exact hstep h
    · exact hstep h
    · exact hstep h
    · rcases List.mem_append.mp h with hmem | hmem
      · exact Nat.le_add_right_of_le (hlast current hmem)
      · have hle := ih hmem
        rw [List.length_cons]
        rw [List.length_nil] at hle
        omega
    · exact hstep h

theorem length_splitColon {s before after : List Char} (h : splitColon s = some (before, after)) :
    after.length < s.length := by
  rw [splitColon] at h
  split at h
  · exact absurd h (by simp)
  · rename_i c rest hdrop
    obtain ⟨-, rfl⟩ := Prod.mk.inj (Option.some.inj h)
    have hle := (List.dropWhile_suffix (l := s) (· ≠ ':')).length_le
    rw [hdrop, List.length_cons] at hle
    exact hle

/-! ## Texts that are JSON -/

theorem replaceChar_flatMap (c : Char) (new : List Char) (s : List Char) (f : Char → List Char) :
    replaceChar c new (s.flatMap f) = s.flatMap fun d => replaceChar c new (f d) := List.flatMap_assoc

theorem replaceChar_singleton {c d : Char} (h : d ≠ c) (new : List Char) : replaceChar c new [d] = [d] := by
  rw [replaceChar, List.flatMap_singleton, if_neg h]

theorem isStringText_escaped {breaks s : List Char} (h : ∀ c ∈ s, 0x20 ≤ c.toNat ∨ c ∈ breaks) :
    IsStringText (s.flatMap (escapeBreaks breaks)) := by
  refine isStringText_flatMap fun c hc => ?_
  rw [escapeBreaks]
  split_ifs with hbackslash hquote hbreak hnewline
  · exact isStringText_piece (p := .escape .backslash) trivial
  · exact isStringText_piece (p := .escape .quote) trivial
  · exact isStringText_piece (p := .escape .n) trivial
  · exact isStringText_piece (p := .escape .r) trivial
  · exact isStringText_piece (p := .plain c) ⟨(h c hc).resolve_right hbreak, hquote, hbackslash⟩

/-- What is written for clean insertions and well formed numbers is JSON. -/
theorem isJson_inserted {breaks : List Char} {t : Node Inserted} (h : t.All (Inserted.Clean breaks) IsNumber) :
    IsJson (t.render (Inserted.text breaks)) := by
  let between : Inserted → List Char
    | .raw s => s
    | .escaped s => s.flatMap (escapeBreaks breaks)
  have hclean : ∀ i, Inserted.Clean breaks i → IsStringText (between i) := by
    intro i hi
    cases i with
    | raw s => exact hi
    | escaped s => exact isStringText_escaped hi
  have hrender : (t.map between).render quoted = t.render (Inserted.text breaks) :=
    Node.render_map (fun i _ => by cases i <;> rfl) t h
  rw [← hrender]
  exact isJson_render (Node.all_map hclean t h)

end Neutron.DocumentText
