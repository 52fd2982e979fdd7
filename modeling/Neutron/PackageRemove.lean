import Neutron.PackageIntegrity
import Neutron.LockfileMap
import Neutron.TomlDocument

/-!
# Removing a dependency from a manifest

`remove` does not edit the manifest: it writes a new one from what `json.get` finds in the text of `toml.parse`.
In that text a section's name is not followed by a colon, so that the sections of a manifest are not found.
-/

namespace Neutron.Pkg

open JsonParser
open Json (quoted)
open Toml (escapeString nestedText tomlPairs)

/-! ### The command -/

def getDependencies (tomlJson : Text) : Text :=
  let deps := jsonLibrary.get tomlJson "dependencies".toList
  if deps.isEmpty || deps == "nil".toList then ['{', '}'] else deps

def rebuildJsonWithout (jsonStr skipKey : Text) : Text :=
  let keys := jsonLibrary.keys jsonStr
  if keys.isEmpty then ['{', '}']
  else
    let names := ((split keys '\n').map trim).filter fun k => !k.isEmpty && k != skipKey
    let parts := names.map fun k => quoteStr k ++ [':', ' '] ++ quoteStr (jsonLibrary.get jsonStr k)
    if parts.isEmpty then ['{', '}'] else ['{'] ++ List.intercalate [',', ' '] parts ++ ['}']

/-- One of the known keys of the package, unless there is no value for it. -/
def packageLine (key : String) (value : Text) : Text :=
  if !value.isEmpty && value != "nil".toList then key.toList ++ " = ".toList ++ quoteStr value ++ ['\n'] else []

/-- The dependencies' lines. -/
def dependencyLines (newDeps : Text) : Text :=
  let depKeys := jsonLibrary.keys newDeps
  if depKeys.isEmpty then []
  else
    let names := ((split depKeys '\n').map trim).filter fun key => !key.isEmpty
    "\n[dependencies]\n".toList ++
      names.flatMap fun key => key ++ " = ".toList ++ quoteStr (jsonLibrary.get newDeps key) ++ ['\n']

def rebuildToml (tomlJson newDeps : Text) : Text :=
  let pkg := jsonLibrary.get tomlJson "package".toList
  let line := fun (key : String) => packageLine key (jsonLibrary.get pkg key.toList)
  "[package]\n".toList ++ line "name" ++ line "target" ++ line "entry" ++ line "output" ++ dependencyLines newDeps

/-- The manifest that is written for the text of the one that was read, or an error. -/
def remove (tomlJson name : Text) : Except Text Text :=
  let deps := getDependencies tomlJson
  let keys := jsonLibrary.keys deps
  if keys.isEmpty then .error "remove: no dependencies found".toList
  else if !contains keys name then
    .error ("remove: package '".toList ++ name ++ "' not in dependencies".toList)
  else .ok (rebuildToml tomlJson (rebuildJsonWithout deps name))

/-! ### What a manifest says -/

/-- The ways of writing a path of names as the key of a pair: bare names, which a dot may separate, and names in
quotes. -/
inductive Spells : List Text → Text → Prop
  | bare {names : List Text} (hne : names ≠ []) (h : ∀ name ∈ names, ∀ c ∈ name, c ≠ '.' ∧ c ≠ '"') :
      Spells names (quoted (List.intercalate ['.'] names))
  | inQuotes (name : Text) : Spells [name] (quoted (quoted (escapeString name)))
  | dotted {names names' : List Text} {key key' : Text} (h : Spells names key) (h' : Spells names' key') :
      Spells (names ++ names') (key ++ '.' :: key')

def tableText (fields : List (Text × Text)) : Text :=
  '{' :: (List.intercalate [','] (fields.map fun f => quoted f.1 ++ ':' :: f.2) ++ ['}'])

/-- The texts of values. -/
inductive IsValue : Text → Prop
  | string (s : Text) : IsValue (quoted (escapeString s))
  | literal {s : Text} (h : '"' ∉ s) : IsValue (quoted s)
  | scalar {s : Text} (h : ∀ c ∈ s, c ∉ ['"', ',', '[', ']', '{', '}']) : IsValue s
  | array {values : List Text} (h : ∀ v ∈ values, IsValue v) :
      IsValue ('[' :: (List.intercalate [','] values ++ [']']))
  | table {fields : List (Text × Text)} (h : ∀ v ∈ fields.map Prod.snd, IsValue v) : IsValue (tableText fields)

def IsTable (v : Text) : Prop := ∃ fields, (∀ f ∈ fields, IsValue f.2) ∧ v = tableText fields

/-- A path of names and the value it leads to, through sections and inline tables. -/
inductive Entry (pairs : List (Text × Text)) : List Text → Text → Prop
  | pair {key v : Text} {path : List Text} (hmem : (key, v) ∈ pairs) (hkey : Spells path key) : Entry pairs path v
  | inline {path names : List Text} {fields : List (Text × Text)} {key v : Text}
      (h : Entry pairs path (tableText fields)) (hvalues : ∀ f ∈ fields, IsValue f.2) (hmem : (key, v) ∈ fields)
      (hkey : Spells names (quoted key)) : Entry pairs (path ++ names) v

/-- The path of a dependency. -/
def dependency (n : Text) : List Text := ["dependencies".toList, n]

def Depends (pairs : List (Text × Text)) (n : Text) : Prop := ∃ path v, dependency n <+: path ∧ Entry pairs path v

variable (renderFloat : Text → Option Text)

/-- The pairs that `toml.parse` reads in a text. -/
def ReadsAs (content : Text) (pairs : List (Text × Text)) : Prop :=
  ∃ fuel, tomlPairs renderFloat fuel content = some pairs

/-- What is asked of removing `n` from a manifest with the pairs: without the dependency there is an error; with it
a manifest is written that has all the other values. -/
def RemovesOnly (pairs : List (Text × Text)) (n : Text) : Prop :=
  (¬Depends pairs n → ∃ e, remove (nestedText pairs) n = .error e) ∧
    (Depends pairs n → ∃ written pairs', remove (nestedText pairs) n = .ok written ∧
      ReadsAs renderFloat written pairs' ∧
      ∀ path v, ¬IsTable v → (Entry pairs' path v ↔ Entry pairs path v ∧ ¬dependency n <+: path))

/-- Both tests of the command succeed. -/
def Passes (tomlJson n : Text) : Prop :=
  jsonLibrary.keys (getDependencies tomlJson) ≠ [] ∧ contains (jsonLibrary.keys (getDependencies tomlJson)) n = true

/-! ### When there is an error -/

theorem remove_error {tomlJson n : Text} (h : ¬Passes tomlJson n) : ∃ e, remove tomlJson n = .error e := by
  rw [remove]
  by_cases hempty : (jsonLibrary.keys (getDependencies tomlJson)).isEmpty = true
  · exact ⟨_, if_pos hempty⟩
  · have hcontains : contains (jsonLibrary.keys (getDependencies tomlJson)) n = false := by
      rw [Bool.eq_false_iff]
      exact fun hcontains => h ⟨fun hnil => hempty (List.isEmpty_iff.mpr hnil), hcontains⟩
    simp only [hempty, hcontains, Bool.not_false, Bool.false_eq_true, if_true, if_false]
    exact ⟨_, rfl⟩

theorem remove_ok {tomlJson n : Text} (h : Passes tomlJson n) : remove tomlJson n =
    .ok (rebuildToml tomlJson (rebuildJsonWithout (getDependencies tomlJson) n)) := by
  have hempty : (jsonLibrary.keys (getDependencies tomlJson)).isEmpty = false := List.isEmpty_eq_false_iff.mpr h.1
  simp only [remove, hempty, h.2, Bool.not_true, Bool.false_eq_true, if_false]

theorem ntscJsonGet_absent {json key : Text} (h : ntscJsonHas json key = false) :
    ntscJsonGet json key = "null".toList := by
  rw [ntscJsonHas, Option.isSome_eq_false_iff, Option.isNone_iff_eq_none] at h
  rw [ntscJsonGet, h]
  rfl

theorem getDependencies_eq (tomlJson : Text) :
    getDependencies tomlJson = ntscJsonGet tomlJson "dependencies".toList := by
  have hne := ntscJsonGet_ne_sentinel tomlJson "dependencies".toList
  simp only [getDependencies, jsonLibrary, hne, Bool.or_self, Bool.false_eq_true, if_false]

/-- A text without the quoted word `dependencies` and a colon: there are no dependencies for the command. -/
theorem not_passes_of_not_has {tomlJson : Text} (h : ntscJsonHas tomlJson "dependencies".toList = false) (n : Text) :
    ¬Passes tomlJson n := by
  have hkeys : jsonLibrary.keys (getDependencies tomlJson) = [] := by
    rw [getDependencies_eq, ntscJsonGet_absent h]
    decide +kernel
  exact fun hpasses => hpasses.1 hkeys

/-! ### What is written -/

/-- Without a package object in the text of the manifest the name is written as `null`. -/
theorem rebuildToml_front {tomlJson : Text} (h : ntscJsonHas tomlJson "package".toList = false) (newDeps : Text) :
    ∃ rest, rebuildToml tomlJson newDeps = "[package]\nname = \"null\"\n".toList ++ rest := by
  have hname : ntscJsonGet "null".toList "name".toList = "null".toList := ntscJsonGet_long (by decide)
  have hline : packageLine "name" "null".toList = "name = \"null\"\n".toList := by decide
  have hfront : "[package]\nname = \"null\"\n".toList = "[package]\n".toList ++ "name = \"null\"\n".toList := by
    decide
  have hassoc : ∀ a b c d e f : Text, a ++ b ++ c ++ d ++ e ++ f = a ++ b ++ (c ++ d ++ e ++ f) := by
    intro a b c d e f
    simp only [List.append_assoc]
  unfold rebuildToml
  dsimp only [jsonLibrary]
  rw [hfront, ntscJsonGet_absent h, hname, hline]
  exact ⟨_, hassoc _ _ _ _ _ _⟩

def nullPair : Text × Text := ("\"package\".\"name\"".toList, "\"null\"".toList)

/-- The bytes of the two lines that are written first. -/
def frontBytes (rest : Bytes) : Bytes := [91, 112, 97, 99, 107, 97, 103, 101, 93, 10] ++
  ([110, 97, 109, 101, 32, 61, 32, 34, 110, 117, 108, 108, 34, 10] ++ rest)

/-- With enough fuel the parser goes through both lines. -/
theorem pairsLoop_front (fuel : ℕ) (rest : Bytes) : Toml.pairsLoop renderFloat (fuel + 3) [] (frontBytes rest) =
    (Toml.pairsLoop renderFloat (fuel + 1) ["package".toList] (10 :: rest)).map (nullPair :: ·) := rfl

theorem tomlPairs_front (fuel : ℕ) (rest : Text) :
    tomlPairs renderFloat fuel ("[package]\nname = \"null\"\n".toList ++ rest) =
      Toml.pairsLoop renderFloat fuel [] (frontBytes (utf8 (RuntimeText.unescape rest))) := by
  have hunescape : RuntimeText.unescape ("[package]\nname = \"null\"\n".toList ++ rest) =
      "[package]\nname = \"null\"\n".toList ++ RuntimeText.unescape rest := rfl
  have hbytes : utf8 "[package]\nname = \"null\"\n".toList = frontBytes [] := by decide
  rw [tomlPairs, hunescape, utf8_append, hbytes]
  rfl

/-- However a text that starts so is read, the name is `null`. -/
theorem nullPair_mem {rest : Text} {pairs : List (Text × Text)}
    (h : ReadsAs renderFloat ("[package]\nname = \"null\"\n".toList ++ rest) pairs) : nullPair ∈ pairs := by
  obtain ⟨fuel, hfuel⟩ := h
  rw [tomlPairs_front] at hfuel
  rcases fuel with _ | _ | _ | fuel
  · cases hfuel
  · cases hfuel
  · cases hfuel
  · rw [pairsLoop_front, Option.map_eq_some_iff] at hfuel
    obtain ⟨more, -, rfl⟩ := hfuel
    exact List.mem_cons_self

theorem spells_single {name : Text} (h : name.all (fun c => c != '.' && c != '"') = true) :
    Spells [name] (quoted name) := by
  have hbare : ∀ name' ∈ [name], ∀ c ∈ name', c ≠ '.' ∧ c ≠ '"' := by
    intro name' hname c hc
    rw [List.mem_singleton.mp hname] at hc
    simpa using List.all_eq_true.mp h c hc
  have hsingle := Spells.bare (List.cons_ne_nil name []) hbare
  rwa [List.intercalate_singleton] at hsingle

theorem spells_name : Spells ["package".toList, "name".toList] "\"package\".\"name\"".toList := by
  have hpackage : Spells ["package".toList] (quoted "package".toList) := spells_single (by decide)
  have hname : Spells ["name".toList] (quoted "name".toList) := spells_single (by decide)
  exact hpackage.dotted hname

theorem not_isTable_null : ¬IsTable "\"null\"".toList := by
  rintro ⟨fields, -, hfields⟩
  exact absurd (List.cons.inj hfields).1 (by decide)

/-- The command does what is asked when neither the dependency is there nor a test for it succeeds, and only then,
unless the name of the package is `null` or the text holds a package object. -/
theorem removesOnly_spec (pairs : List (Text × Text)) (n : Text) :
    (¬Depends pairs n ∧ ¬Passes (nestedText pairs) n → RemovesOnly renderFloat pairs n) ∧
      (RemovesOnly renderFloat pairs n → (¬Depends pairs n ∧ ¬Passes (nestedText pairs) n) ∨
        Entry pairs ["package".toList, "name".toList] "\"null\"".toList ∨
        ntscJsonHas (nestedText pairs) "package".toList = true) := by
  constructor
  · rintro ⟨habsent, hpasses⟩
    exact ⟨fun _ => remove_error hpasses, fun hdepends => absurd hdepends habsent⟩
  · rintro ⟨habsent, hpresent⟩
    by_cases hpasses : Passes (nestedText pairs) n
    · by_cases hdepends : Depends pairs n
      · by_cases hpackage : ntscJsonHas (nestedText pairs) "package".toList = true
        · exact .inr (.inr hpackage)
        · obtain ⟨written, pairs', hwritten, hreads, hsame⟩ := hpresent hdepends
          obtain ⟨rest, hrest⟩ := rebuildToml_front (Bool.eq_false_iff.mpr hpackage)
            (rebuildJsonWithout (getDependencies (nestedText pairs)) n)
          rw [remove_ok hpasses, hrest] at hwritten
          obtain rfl := Except.ok.inj hwritten
          have hname : Entry pairs' ["package".toList, "name".toList] "\"null\"".toList :=
            .pair (nullPair_mem renderFloat hreads) spells_name
          exact .inr (.inl ((hsame _ _ not_isTable_null).mp hname).1)
      · obtain ⟨e, he⟩ := habsent hdepends
        rw [remove_ok hpasses] at he
        cases he
    · by_cases hdepends : Depends pairs n
      · obtain ⟨written, -, hwritten, -⟩ := hpresent hdepends
        obtain ⟨e, he⟩ := remove_error hpasses
        rw [he] at hwritten
        cases hwritten
      · exact .inl ⟨hdepends, hpasses⟩

/-- A manifest with one dependency. -/
def manifest : Text := "[package]\nname = \"app\"\n[dependencies]\na = \"1\"\n".toList

def manifestPairs : List (Text × Text) :=
  [("\"package\".\"name\"".toList, "\"app\"".toList), ("\"dependencies\".\"a\"".toList, "\"1\"".toList)]

/-- The dependency is not found. -/
theorem manifest_not_removesOnly :
    ReadsAs (fun _ => none) manifest manifestPairs ∧ ¬RemovesOnly (fun _ => none) manifestPairs ['a'] := by
  constructor
  · have hbytes : utf8 (RuntimeText.unescape manifest) =
        [91, 112, 97, 99, 107, 97, 103, 101, 93, 10, 110, 97, 109, 101, 32, 61, 32, 34, 97, 112, 112, 34, 10, 91,
         100, 101, 112, 101, 110, 100, 101, 110, 99, 105, 101, 115, 93, 10, 97, 32, 61, 32, 34, 49, 34, 10] := by
      decide
    use 6
    rw [tomlPairs, hbytes]
    rfl
  · rintro ⟨-, hpresent⟩
    have hdependencies : Spells ["dependencies".toList] (quoted "dependencies".toList) := spells_single (by decide)
    have hname : Spells [['a']] (quoted ['a']) := spells_single (by decide)
    have hentry : Entry manifestPairs (dependency ['a']) "\"1\"".toList :=
      .pair (List.mem_cons_of_mem _ List.mem_cons_self) (hdependencies.dotted hname)
    obtain ⟨written, -, hwritten, -⟩ := hpresent ⟨_, _, List.prefix_refl _, hentry⟩
    have hhas : ntscJsonHas (nestedText manifestPairs) "dependencies".toList = false := by decide +kernel
    obtain ⟨e, he⟩ := remove_error (not_passes_of_not_has hhas ['a'])
    rw [he] at hwritten
    cases hwritten

end Neutron.Pkg
