import Neutron.PackageResolve

/-!
# The lockfile of the package manager

`install` of `ntsc-pkg` goes through the resolved packages and then writes the lockfile. Cloning,
hashing and file access are effects that succeed; the cache is the list of package directories that
exist, and a lookup of a repository can fail. The JSON functions of the standard library are
parameters. The lockfile here is the JSON text that `read_lockfile` gives and `write_lockfile` takes;
the TOML of the file itself is not followed.
-/

namespace Neutron.Pkg

/-- `json.get` and `json.keys`. -/
structure JsonLibrary where
  get : Text → Text → Text
  keys : Text → Text

/-- What the host answers: repositories, the cache directory and the hash of a directory. -/
structure Host where
  getRepo : Text → Except Text Text
  cacheDir : Text
  computeIntegrity : Text → Text

def quoteStr (s : Text) : Text :=
  ['"'] ++ s.flatMap (fun c => if c = '"' then ['\\', '"'] else [c]) ++ ['"']

section
variable (json : JsonLibrary)

def setJsonKey (jsonStr key value : Text) : Text :=
  let keys := json.keys jsonStr
  let hasKey := !keys.isEmpty && keys.tails.any key.isPrefixOf
  let names := if keys.isEmpty then [] else
    ((split keys '\n').map trim).filter fun k => !k.isEmpty
  let pair := fun k v => quoteStr k ++ [':', ' '] ++ quoteStr v
  let parts := names.map fun k => if k = key then pair k value else pair k (json.get jsonStr k)
  let parts := if hasKey then parts else parts ++ [pair key value]
  ['{'] ++ List.intercalate [',', ' '] parts ++ ['}']

/-- The lockfile with an entry for a package. -/
def setPackage (lockfileJson name version source integrity : Text) : Text :=
  let field := fun (key : String) value => ['"'] ++ key.toList ++ "\":\"".toList ++ value ++ ['"']
  let pkgJson := ['{'] ++ List.intercalate [','] [field "name" name, field "version" version,
    field "source" source, field "integrity" integrity] ++ ['}']
  let existing := json.get lockfileJson "package".toList
  let existing := if existing.isEmpty || existing == "nil".toList then ['{', '}'] else existing
  setJsonKey json lockfileJson "package".toList (setJsonKey json existing name pkgJson)

def getPackage (lockfileJson name : Text) : Text :=
  let packages := json.get lockfileJson "package".toList
  if packages.isEmpty || packages == "nil".toList then ['{', '}']
  else
    let package := json.get packages name
    if package.isEmpty || package == "nil".toList then ['{', '}'] else package

/-! ### A resolved entry, as it is read -/

def entryPart (s : Text) (c : Char) (i : ℕ) : Text := (split s c).getD i []

def packageName (entry : Text) : Text := entryPart (entryPart entry '|' 0) '@' 0

def packageVersion (entry : Text) : Text := entryPart (entryPart entry '|' 0) '@' 1

def packageSource (entry : Text) : Text := entryPart entry '|' 1

/-! ### Installation -/

variable (host : Host)

def packageDir (name version : Text) : Text :=
  host.cacheDir ++ ['/'] ++ name ++ ['@'] ++ version

/-- The cache after a package is installed, and the copy of the lockfile the call was given as it
leaves it; `install` only sees the first. -/
def installPackage (cached : List Text) (name version source lockfileJson : Text) :
    Except Text (List Text × Text) :=
  let dir := packageDir host name version
  if dir ∈ cached then .ok (cached, lockfileJson)
  else
    match host.getRepo name with
    | .error e => .error e
    | .ok _ =>
      .ok (dir :: cached, setPackage json lockfileJson name version source (host.computeIntegrity dir))

def installAll (lockfileJson : Text) : List Text → List Text → Except Text (List Text)
  | cached, [] => .ok cached
  | cached, entry :: resolved =>
    match installPackage json host cached (packageName entry) (packageVersion entry)
        (packageSource entry) lockfileJson with
    | .error e => .error e
    | .ok (cached, _) => installAll lockfileJson cached resolved

/-- The JSON text that `install` hands to `write_lockfile`. -/
def install (cached : List Text) (lockfileJson : Text) (resolved : List Text) : Except Text Text :=
  match installAll json host lockfileJson cached resolved with
  | .error e => .error e
  | .ok _ => .ok lockfileJson

/-! ### What the lockfile is to record -/

/-- The entry of a package holds its name, version and source. -/
structure Records (lockfileJson entry : Text) : Prop where
  name : json.get (getPackage json lockfileJson (packageName entry)) "name".toList =
    ['"'] ++ packageName entry ++ ['"']
  version : json.get (getPackage json lockfileJson (packageName entry)) "version".toList =
    ['"'] ++ packageVersion entry ++ ['"']
  source : json.get (getPackage json lockfileJson (packageName entry)) "source".toList =
    ['"'] ++ packageSource entry ++ ['"']

/-- Every resolved package is recorded, and the entries of the others are kept. -/
structure RecordsInstalled (lockfileJson written : Text) (resolved : List Text) : Prop where
  recorded : ∀ entry ∈ resolved, Records json written entry
  kept : ∀ name, (∀ entry ∈ resolved, packageName entry ≠ name) →
    getPackage json written name = getPackage json lockfileJson name

end

variable {json : JsonLibrary} {host : Host}

/-- Whatever the calls for the packages do, the text that is written is the text that was read. -/
theorem install_eq_ok {cached resolved : List Text} {lockfileJson written : Text}
    (h : install json host cached lockfileJson resolved = .ok written) : written = lockfileJson := by
  cases hall : installAll json host lockfileJson cached resolved with
  | error e =>
    simp only [install, hall] at h
    cases h
  | ok after =>
    simp only [install, hall] at h
    cases h
    rfl

/-- After an installation the text handed to `write_lockfile` records what was installed exactly when the
text that was read does. -/
theorem recordsInstalled_iff {cached resolved : List Text} {lockfileJson written : Text}
    (h : install json host cached lockfileJson resolved = .ok written) :
    RecordsInstalled json lockfileJson written resolved ↔
      ∀ entry ∈ resolved, Records json lockfileJson entry := by
  have hwritten := install_eq_ok h
  subst hwritten
  constructor
  · intro hrecords
    exact hrecords.recorded
  · intro hrecords
    exact ⟨hrecords, fun _ _ => rfl⟩

/-- An installation without lookups that fail succeeds. -/
theorem install_of_repos {resolved : List Text} (lockfileJson : Text)
    (hrepos : ∀ entry ∈ resolved, ∃ repo, host.getRepo (packageName entry) = .ok repo)
    (cached : List Text) :
    install json host cached lockfileJson resolved = .ok lockfileJson := by
  have hall : ∃ after, installAll json host lockfileJson cached resolved = .ok after := by
    induction resolved generalizing cached with
    | nil => exact ⟨cached, rfl⟩
    | cons entry resolved ih =>
      obtain ⟨repo, hrepo⟩ := hrepos entry List.mem_cons_self
      have hrest := ih fun e he => hrepos e (List.mem_cons_of_mem _ he)
      by_cases hdir : packageDir host (packageName entry) (packageVersion entry) ∈ cached
      · simp only [installAll, installPackage, if_pos hdir]
        exact hrest cached
      · simp only [installAll, installPackage, if_neg hdir, hrepo]
        exact hrest _
  obtain ⟨after, hall⟩ := hall
  simp only [install, hall]

/-- A library on texts without keys: nothing is found. -/
def emptyJson : JsonLibrary := ⟨fun _ _ => ['n', 'u', 'l', 'l'], fun _ => []⟩

def plainHost : Host := ⟨fun _ => .ok ['r'], ['c'], fun _ => ['h']⟩

theorem recordsInstalled_iff_fresh :
    install emptyJson plainHost [] ['{', '}'] [['a', '@', '1', '|', 's']] = .ok ['{', '}'] ∧
      (RecordsInstalled emptyJson ['{', '}'] ['{', '}'] [['a', '@', '1', '|', 's']] ↔
        ∀ entry ∈ [['a', '@', '1', '|', 's']], Records emptyJson ['{', '}'] entry) := by
  have hrun : install emptyJson plainHost [] ['{', '}'] [['a', '@', '1', '|', 's']] =
      .ok ['{', '}'] :=
    install_of_repos _ (fun _ _ => ⟨_, rfl⟩) []
  exact ⟨hrun, recordsInstalled_iff hrun⟩

theorem not_recordsInstalled_fresh :
    install emptyJson plainHost [] ['{', '}'] [['a', '@', '1', '|', 's']] = .ok ['{', '}'] ∧
      ¬ RecordsInstalled emptyJson ['{', '}'] ['{', '}'] [['a', '@', '1', '|', 's']] := by
  refine ⟨install_of_repos _ (fun _ _ => ⟨_, rfl⟩) [], fun h => ?_⟩
  have hname := (h.recorded ['a', '@', '1', '|', 's'] List.mem_cons_self).name
  have hhead := congrArg List.head? hname
  simp [emptyJson] at hhead

end Neutron.Pkg
