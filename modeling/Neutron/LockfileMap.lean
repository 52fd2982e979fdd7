import Neutron.PackageInstall
import Neutron.JsonLookup

/-!
# The lockfile as a map

`set_package` and `get_package` of the lockfile, with the JSON functions of the runtime. An absent key is asked
for as `nil` and answered with `null`, so that a lookup never gives the text of an empty object.
-/

namespace Neutron.Pkg

open JsonParser

/-- `json.get` and `json.keys` of the runtime. -/
def jsonLibrary : JsonLibrary := ⟨ntscJsonGet, ntscJsonKeys⟩

def listPackages (lockfileJson : Text) : List Text :=
  let pkgs := jsonLibrary.get lockfileJson "package".toList
  if pkgs.isEmpty || pkgs == "nil".toList then []
  else
    let keys := jsonLibrary.keys pkgs
    if keys.isEmpty then []
    else ((split keys '\n').map trim).filter fun key => !key.isEmpty

/-- A package name: letters, digits and three signs. -/
structure PackageName where
  text : Text
  nonempty : text ≠ []
  plain : ∀ c ∈ text, c.isAlphanum ∨ c = '-' ∨ c = '_' ∨ c = '.'

/-- The arguments of `set_package` after the lockfile. -/
structure SetCall where
  name : PackageName
  version : Text
  source : Text
  integrity : Text

def SetCall.run (lockfileJson : Text) (call : SetCall) : Text :=
  setPackage jsonLibrary lockfileJson call.name.text call.version call.source call.integrity

/-- The lockfile after the calls, from the empty object. -/
def lockfile (calls : List SetCall) : Text := calls.foldl SetCall.run ['{', '}']

def SetCall.fields (call : SetCall) : List (Text × Text) :=
  [("name".toList, call.name.text), ("version".toList, call.version), ("source".toList, call.source),
    ("integrity".toList, call.integrity)]

/-- What a call after others is to do. -/
structure MapUpdate (calls : List SetCall) (call : SetCall) : Prop where
  recorded : ∀ field ∈ call.fields,
    Json.Denotes (ntscJsonGet (getPackage jsonLibrary (call.run (lockfile calls)) call.name.text) field.1)
      (.str (field.2.flatMap Json.utf16))
  kept : ∀ n : PackageName, n.text ≠ call.name.text →
    getPackage jsonLibrary (call.run (lockfile calls)) n.text = getPackage jsonLibrary (lockfile calls) n.text
  absent : ∀ n : PackageName, getPackage jsonLibrary (call.run (lockfile calls)) n.text = ['{', '}'] ↔
    ∀ made ∈ calls ++ [call], made.name.text ≠ n.text
  nodup : (listPackages (call.run (lockfile calls))).Nodup
  listed : ∀ n, n ∈ listPackages (call.run (lockfile calls)) ↔ ∃ made ∈ calls ++ [call], made.name.text = n

/-! ### Absent keys -/

/-- The number is not empty, and it begins with a sign or a digit. -/
theorem numberRun_head {b : UInt8} (hb : b = ascii '-' ∨ isAsciiDigit b = true) (more : Bytes) :
    ∃ run, (numberRun (b :: more)).1 = b :: run := by
  rw [numberRun]
  split_ifs with hsign
  · exact ⟨_, rfl⟩
  · rw [numberLoop_digit (hb.resolve_left hsign)]
    exact ⟨_, rfl⟩

/-- A value is read as a text whose first character is that of some value, and no value begins with the letters
of `nil`. -/
theorem reads_ne_sentinel {bytes rest : Bytes} {out : Text} (h : Reads .value bytes [out] rest) :
    out ≠ [] ∧ out ≠ "nil".toList := by
  cases h with
  | word hword _ =>
    simp only [words, List.mem_cons, List.not_mem_nil, or_false] at hword
    rcases hword with rfl | rfl | rfl <;> decide
  | @number _ b more _ hb =>
    obtain ⟨run, hrun⟩ := numberRun_head hb more
    rw [hrun, List.map_cons]
    constructor
    · exact List.cons_ne_nil _ _
    · intro heq
      have hhead : byteChar b = 'n' := (List.cons.inj heq).1
      rcases hb with rfl | hdigit
      · exact absurd hhead (by decide)
      · have hvalue := congrArg Char.toNat hhead
        rw [toNat_byteChar] at hvalue
        simp only [isAsciiDigit, Bool.and_eq_true, decide_eq_true_eq, UInt8.le_iff_toNat_le] at hdigit
        exact absurd (hvalue ▸ hdigit.2) (by decide)
  | string _ _ => exact ⟨List.cons_ne_nil _ _, fun heq => absurd (List.cons.inj heq).1 (by decide)⟩
  | emptyArray _ _ => decide
  | array _ _ _ => exact ⟨List.cons_ne_nil _ _, fun heq => absurd (List.cons.inj heq).1 (by decide)⟩
  | emptyObject _ _ => decide
  | object _ _ _ => exact ⟨List.cons_ne_nil _ _, fun heq => absurd (List.cons.inj heq).1 (by decide)⟩

/-- A lookup never answers with the empty text or with `nil`. -/
theorem ntscJsonGet_ne_sentinel (json key : Text) :
    (ntscJsonGet json key).isEmpty = false ∧ (ntscJsonGet json key == "nil".toList) = false := by
  have hnull : (['n', 'u', 'l', 'l'] : Text).isEmpty = false ∧ (['n', 'u', 'l', 'l'] == "nil".toList) = false := by
    decide
  rw [ntscJsonGet]
  cases findStr (search key) json with
  | none => exact hnull
  | some found =>
    dsimp only
    cases hparse : parse found.2 with
    | error e => exact hnull
    | ok read =>
      have hne := reads_ne_sentinel (parse_eq_ok_iff.mp hparse)
      exact ⟨List.isEmpty_eq_false_iff.mpr hne.1, beq_eq_false_iff_ne.mpr hne.2⟩

theorem ntscJsonGet_long {json key : Text} (h : json.length ≤ key.length) : ntscJsonGet json key = "null".toList := by
  rw [ntscJsonGet]
  cases hfound : findStr (search key) json with
  | none => rfl
  | some found =>
    have hlength := congrArg List.length (prefix_of_findStr hfound)
    simp only [search, List.length_append, List.length_cons] at hlength
    omega

/-- The lookup of a package is two lookups; the tests for an empty entry and for `nil` never succeed. -/
theorem getPackage_eq (lockfileJson name : Text) : getPackage jsonLibrary lockfileJson name =
    ntscJsonGet (ntscJsonGet lockfileJson "package".toList) name := by
  have houter := ntscJsonGet_ne_sentinel lockfileJson "package".toList
  have hinner := ntscJsonGet_ne_sentinel (ntscJsonGet lockfileJson "package".toList) name
  simp only [getPackage, jsonLibrary, houter, hinner, Bool.or_self, Bool.false_eq_true, if_false]

/-- A name longer than the lockfile. -/
def longName (n : ℕ) : PackageName where
  text := List.replicate (n + 1) 'a'
  nonempty := List.cons_ne_nil _ _
  plain := fun c hc => .inl (by rw [List.eq_of_mem_replicate hc]; rfl)

/-- A name that was never set is looked up as `null`. -/
theorem getPackage_longName (lockfileJson : Text) : ∃ bound, ∀ n, bound ≤ n →
    getPackage jsonLibrary lockfileJson (longName n).text = "null".toList := by
  use (ntscJsonGet lockfileJson "package".toList).length
  intro n hn
  rw [getPackage_eq]
  apply ntscJsonGet_long
  rw [longName, List.length_replicate]
  omega

theorem longName_fresh (calls : List SetCall) : ∃ bound, ∀ n, bound ≤ n →
    ∀ made ∈ calls, made.name.text ≠ (longName n).text := by
  induction calls with
  | nil => exact ⟨0, fun n _ made hmade => absurd hmade List.not_mem_nil⟩
  | cons call calls ih =>
    obtain ⟨bound, hbound⟩ := ih
    use max bound call.name.text.length
    intro n hn made hmade heq
    rcases List.mem_cons.mp hmade with rfl | hmade
    · have hlength := congrArg List.length heq
      rw [longName, List.length_replicate] at hlength
      omega
    · exact hbound n (by omega) made hmade heq

/-- No call, after any calls, updates the lockfile as a map: there is always a name that was never set and
is not answered with the empty object. -/
theorem setPackage_not_mapUpdate (calls : List SetCall) (call : SetCall) : ¬MapUpdate calls call := by
  intro h
  obtain ⟨bound, hnull⟩ := getPackage_longName (call.run (lockfile calls))
  obtain ⟨bound', hfresh⟩ := longName_fresh (calls ++ [call])
  have hempty := (h.absent (longName (max bound bound'))).mpr (hfresh _ (Nat.le_max_right _ _))
  rw [hnull _ (Nat.le_max_left _ _)] at hempty
  exact absurd hempty (by decide)

def letterName (c : Char) (h : c.isAlphanum = true) : PackageName where
  text := [c]
  nonempty := List.cons_ne_nil _ _
  plain := fun _ hd => .inl (List.mem_singleton.mp hd ▸ h)

/-- The first package of a lockfile. -/
def firstCall : SetCall := ⟨letterName 'a' rfl, "1.0.0".toList, "s".toList, "h".toList⟩

/-- After it the package itself is looked up as `null`, and so is one that was never set. -/
theorem firstCall_not_mapUpdate :
    getPackage jsonLibrary (firstCall.run (lockfile [])) firstCall.name.text = "null".toList ∧
      ¬MapUpdate [] firstCall := by
  constructor
  · decide +kernel
  · intro h
    have hfresh : ∀ made ∈ [] ++ [firstCall], made.name.text ≠ (letterName 'b' rfl).text := by
      intro made hmade
      rw [List.mem_singleton.mp hmade]
      decide
    have hempty := (h.absent (letterName 'b' rfl)).mpr hfresh
    have hnull : getPackage jsonLibrary (firstCall.run (lockfile [])) (letterName 'b' rfl).text = "null".toList := by
      decide +kernel
    rw [hnull] at hempty
    exact absurd hempty (by decide)

end Neutron.Pkg
