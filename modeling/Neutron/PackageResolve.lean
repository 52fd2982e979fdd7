import Mathlib.Algebra.Group.Int.Defs
import Mathlib.Data.Int.Basic
import Mathlib.Data.List.Basic
import Mathlib.Data.List.Nodup
import Mathlib.Data.List.TakeWhile

/-!
# Dependency resolution of the package manager

`resolve` of `ntsc-pkg` works through a queue of requests. The registry and the dependency tables of
the package versions are fixed functions; sets and arrays are those of the standard library: a set is
a text of lines that `set_add` and `set_remove` do not write back, and `arrays.remove` looks for a
value and returns a new array.
-/

namespace Neutron.Pkg

abbrev Text := List Char

/-- The Unicode white space that `trim` cuts off. -/
def isSpace (c : Char) : Bool :=
  let n := c.toNat
  (9 ≤ n && n ≤ 13) || n == 0x20 || n == 0x85 || n == 0xA0 || n == 0x1680 ||
    (0x2000 ≤ n && n ≤ 0x200A) || n == 0x2028 || n == 0x2029 || n == 0x202F || n == 0x205F ||
    n == 0x3000

def trim (s : Text) : Text := ((s.dropWhile isSpace).reverse.dropWhile isSpace).reverse

def split (s : Text) (c : Char) : List Text := s.splitOn c

/-! ### Versions -/

def inI64 (i : ℤ) : Bool := -2 ^ 63 ≤ i && i < 2 ^ 63

def digits (acc : ℕ) : Text → Option ℕ
  | [] => some acc
  | c :: s => if c.isDigit then digits (10 * acc + (c.toNat - '0'.toNat)) s else none

def parseI64 (s : Text) : Option ℤ := do
  let i ← match s with
    | [] => none
    | '-' :: s => if s.isEmpty then none else (digits 0 s).map fun n => -(n : ℤ)
    | '+' :: s => if s.isEmpty then none else (digits 0 s).map fun n => (n : ℤ)
    | s => (digits 0 s).map fun n => (n : ℤ)
  if inI64 i then some i else none

/-- A component that is no number counts as zero: the exception of `fmt.to_int` is caught. -/
def parseIntComponent (s : Text) : ℤ := (parseI64 (trim s)).getD 0

def i64ToStr (i : ℤ) : Text := (toString i).toList

/-- The version in three parts, or the empty text. -/
def parseVersion (s : Text) : Text :=
  let trimmed := trim s
  if trimmed.isEmpty then []
  else
    let parts := split trimmed '.'
    if parts.length < 1 || 3 < parts.length then []
    else
      let component := fun i => ((parts[i]?).map parseIntComponent).getD 0
      i64ToStr (component 0) ++ ['.'] ++ i64ToStr (component 1) ++ ['.'] ++ i64ToStr (component 2)

def versionComponent (v : Text) (i : ℕ) : ℤ := (((split v '.')[i]?).map parseIntComponent).getD 0

/-- Integer subtraction throws when the difference leaves the range. -/
def checkedSub (a b : ℤ) : Option ℤ := if inI64 (a - b) then some (a - b) else none

def compareVersions (a b : Text) : Option ℤ :=
  let part := versionComponent
  if part a 0 ≠ part b 0 then checkedSub (part a 0) (part b 0)
  else if part a 1 ≠ part b 1 then checkedSub (part a 1) (part b 1)
  else checkedSub (part a 2) (part b 2)

def comparison (version target : Text) (accept : ℤ → Bool) : Option Bool :=
  let target := parseVersion target
  if target.isEmpty then some false else (compareVersions version target).map accept

def singleSatisfies (version spec : Text) : Option Bool :=
  match spec with
  | [] => some true
  | '>' :: '=' :: target => comparison version target (0 ≤ ·)
  | '>' :: target => comparison version target (0 < ·)
  | '<' :: '=' :: target => comparison version target (· ≤ 0)
  | '<' :: target => comparison version target (· < 0)
  | target => comparison version target (· = 0)

/-- Whether a version meets a requirement; `none` when a comparison throws. -/
def satisfies (version spec : Text) : Option Bool :=
  (split (trim spec) ',').foldlM (fun met part =>
    if met then singleSatisfies version (trim part) else some false) true

/-! ### Sets and arrays of the standard library -/

def splitItems (s : Text) : List Text := if s.isEmpty then [] else split s '\n'

def setNew : Text := []

def setHas (set value : Text) : Bool := (splitItems set).contains value

/-- Whether the value is new, and the set afterwards: the item list is not written back. -/
def setAdd (set value : Text) : Bool × Text := (!setHas set value, set)

def setRemove (set value : Text) : Bool × Text := (setHas set value, set)

/-- The new array without the first element equal to the value, and the given array afterwards. -/
def arraysRemove (items : List Text) (value : Text) : List Text × List Text :=
  (items.erase value, items)

/-! ### Resolution -/

/-- A `[dependencies]` table: names with their requirements. -/
abbrev DependencyTable := List (Text × Text)

/-- A registry with finitely many packages and the tables of their versions. -/
structure Registry where
  packages : List Text
  findBestVersion : Text → Text → Except Text Text
  getRepo : Text → Except Text Text
  dependencies : Text → Text → DependencyTable
  known : ∀ name spec version, findBestVersion name spec = .ok version → name ∈ packages

/-- `json.keys` joins the names by commas. -/
def jsonKeys (table : DependencyTable) : Text := List.intercalate [','] (table.map Prod.fst)

/-- `json.get` gives a text back in its quotes. -/
def jsonGet (table : DependencyTable) (key : Text) : Text :=
  ((table.find? fun entry => entry.1 = key).map fun entry => ['"'] ++ entry.2 ++ ['"']).getD
    "null".toList

/-- The names that are read from a table: the lines of its keys, trimmed, without blank ones. -/
def keyList (table : DependencyTable) : List Text :=
  if (jsonKeys table).isEmpty then []
  else ((split (jsonKeys table) '\n').map trim).filter fun key => !key.isEmpty

def rootSpec (table : DependencyTable) (name : Text) : Text :=
  let spec := jsonGet table name
  if spec.isEmpty || spec == "nil".toList then ['*'] else spec

/-- The queue before the loop. -/
def rootRequests (table : DependencyTable) : List Text :=
  (keyList table).map fun name => name ++ ['\t'] ++ rootSpec table name

def requestName (entry : Text) : Text := (split entry '\t').headD []

def requestSpec (entry : Text) : Text := (split entry '\t').getD 1 ['*']

def getSubDeps (reg : Registry) (name version : Text) : List Text :=
  match reg.getRepo name with
  | .error _ => []
  | .ok _ => keyList (reg.dependencies name version)

def resolvedEntry (name version repo : Text) : Text :=
  name ++ ['@'] ++ version ++ ['|'] ++ ("git+".toList ++ repo ++ "#v".toList ++ version)

structure ResolveState where
  resolved : List Text
  visited : Text
  resolving : Text
  queue : List Text

/-- One turn of the loop: the next state, or what `resolve` returns. -/
def resolveStep (reg : Registry) (s : ResolveState) :
    ResolveState ⊕ Except Text (List Text) :=
  match s.queue with
  | [] => .inr (.ok s.resolved)
  | entry :: _ =>
    let queue := (arraysRemove s.queue ['0']).2
    let name := requestName entry
    if setHas s.visited name then .inl { s with queue := queue }
    else if setHas s.resolving name then
      .inr (.error ("resolve: circular dependency: ".toList ++ name))
    else
      let resolving := (setAdd s.resolving name).2
      match reg.findBestVersion name (requestSpec entry) with
      | .error e => .inr (.error e)
      | .ok version =>
        match reg.getRepo name with
        | .error e => .inr (.error e)
        | .ok repo =>
          let visited := (setAdd s.visited name).2
          let fresh := (getSubDeps reg name version).filter fun sub => !setHas visited sub
          .inl {
            resolved := s.resolved ++ [resolvedEntry name version repo]
            visited := visited
            resolving := (setRemove resolving name).2
            queue := queue ++ fresh.map fun sub => sub ++ ['\t', '*'] }

def resolveLoop (reg : Registry) : ℕ → ResolveState → Option (Except Text (List Text))
  | 0, _ => none
  | fuel + 1, s =>
    match resolveStep reg s with
    | .inr result => some result
    | .inl next => resolveLoop reg fuel next

def resolveStart (table : DependencyTable) : ResolveState :=
  ⟨[], setNew, setNew, rootRequests table⟩

/-- `resolve` with a bound on the turns of its loop. -/
def resolve (reg : Registry) (table : DependencyTable) (fuel : ℕ) :
    Option (Except Text (List Text)) :=
  if table.isEmpty then some (.ok []) else resolveLoop reg fuel (resolveStart table)

def Returns (reg : Registry) (table : DependencyTable) (result : Except Text (List Text)) : Prop :=
  ∃ fuel, resolve reg table fuel = some result

/-! ### The closure that is asked for -/

/-- A requirement on a package, written by the root or by a chosen version. -/
inductive Requires (reg : Registry) (table : DependencyTable) (chosen : List (Text × Text)) :
    Text → Text → Prop
  | root {name spec : Text} (h : (name, spec) ∈ table) (hname : trim name ≠ []) :
      Requires reg table chosen name spec
  | sub {parent version name spec : Text} (hparent : (parent, version) ∈ chosen)
      (h : (name, spec) ∈ reg.dependencies parent version) : Requires reg table chosen name spec

/-- The packages reachable from the root through the tables of the chosen versions. -/
inductive Reachable (reg : Registry) (table : DependencyTable) (chosen : List (Text × Text)) :
    Text → Prop
  | root {name spec : Text} (h : (name, spec) ∈ table) (hname : trim name ≠ []) :
      Reachable reg table chosen name
  | sub {parent version name spec : Text} (hreach : Reachable reg table chosen parent)
      (hparent : (parent, version) ∈ chosen) (h : (name, spec) ∈ reg.dependencies parent version) :
      Reachable reg table chosen name

/-- The list holds the reachable packages, each once, in versions that meet every requirement. -/
structure Closure (reg : Registry) (table : DependencyTable) (list : List Text)
    (chosen : List (Text × Text)) : Prop where
  listed : List.Forall₂ (fun entry package => ∃ repo, reg.getRepo package.1 = .ok repo ∧
    entry = resolvedEntry package.1 package.2 repo) list chosen
  once : (chosen.map Prod.fst).Nodup
  reachable : ∀ name, name ∈ chosen.map Prod.fst ↔ Reachable reg table chosen name
  meets : ∀ name version spec, (name, version) ∈ chosen → Requires reg table chosen name spec →
    satisfies version spec = some true

/-- `resolve` returns, and an accepted result is the closure of the root. -/
def ResolvesClosure (reg : Registry) (table : DependencyTable) : Prop :=
  (∃ result, Returns reg table result) ∧
    ∀ list, Returns reg table (.ok list) → ∃ chosen, Closure reg table list chosen

/-- The registry has no answer to a request. -/
def Unanswered (reg : Registry) (entry : Text) : Prop :=
  (∃ e, reg.findBestVersion (requestName entry) (requestSpec entry) = .error e) ∨
    ∃ e, reg.getRepo (requestName entry) = .error e

/-! ### What the loop does -/

theorem setHas_setNew (value : Text) : setHas setNew value = false := rfl

/-- The sets are still empty and the request at the front of the queue is the same. -/
structure Stuck (entry : Text) (s : ResolveState) : Prop where
  visited : s.visited = setNew
  resolving : s.resolving = setNew
  front : ∃ rest, s.queue = entry :: rest

variable {reg : Registry}

theorem resolveStep_stuck {entry : Text} {s : ResolveState}
    (hanswered : ¬ Unanswered reg entry) (hs : Stuck entry s) :
    ∃ next, resolveStep reg s = .inl next ∧ Stuck entry next := by
  obtain ⟨rest, hqueue⟩ := hs.front
  have hvisited : setHas s.visited (requestName entry) = false := by
    rw [hs.visited]
    exact setHas_setNew _
  have hresolving : setHas s.resolving (requestName entry) = false := by
    rw [hs.resolving]
    exact setHas_setNew _
  cases hversion : reg.findBestVersion (requestName entry) (requestSpec entry) with
  | error e => exact absurd (Or.inl ⟨e, hversion⟩) hanswered
  | ok version =>
    cases hrepo : reg.getRepo (requestName entry) with
    | error e => exact absurd (Or.inr ⟨e, hrepo⟩) hanswered
    | ok repo =>
      simp only [resolveStep, hqueue, hvisited, hresolving, hversion, hrepo, Bool.false_eq_true,
        if_false]
      refine ⟨_, rfl, hs.visited, hs.resolving, ?_⟩
      simp only [arraysRemove, List.cons_append]
      exact ⟨_, rfl⟩

theorem resolveLoop_stuck {entry : Text} (hanswered : ¬ Unanswered reg entry)
    (fuel : ℕ) (s : ResolveState) (hs : Stuck entry s) : resolveLoop reg fuel s = none := by
  induction fuel generalizing s with
  | zero => rfl
  | succ fuel ih =>
    obtain ⟨next, hstep, hnext⟩ := resolveStep_stuck hanswered hs
    simp only [resolveLoop, hstep]
    exact ih next hnext

variable {table : DependencyTable}

/-- A request that the registry answers is never taken off the queue. -/
theorem not_returns_of_answered {entry : Text}
    {rest : List Text} (hrequests : rootRequests table = entry :: rest)
    (hanswered : ¬ Unanswered reg entry) (result : Except Text (List Text)) :
    ¬ Returns reg table result := by
  rintro ⟨fuel, h⟩
  have hne : table.isEmpty = false := by
    cases table with
    | nil => simp [rootRequests, keyList, jsonKeys, List.intercalate] at hrequests
    | cons => rfl
  have hloop := resolveLoop_stuck hanswered fuel (resolveStart table) ⟨rfl, rfl, rest, hrequests⟩
  simp only [resolve, hne, Bool.false_eq_true, if_false, hloop] at h
  cases h

theorem returns_of_unanswered {entry : Text} {rest : List Text} (hrequests : rootRequests table = entry :: rest)
    (hunanswered : Unanswered reg entry) :
    ∃ e, ∀ fuel, resolve reg table (fuel + 1) = some (.error e) := by
  have hne : table.isEmpty = false := by
    cases table with
    | nil => simp [rootRequests, keyList, jsonKeys, List.intercalate] at hrequests
    | cons => rfl
  have hstep : ∃ e, resolveStep reg (resolveStart table) = .inr (.error e) := by
    simp only [resolveStart, resolveStep, hrequests, setHas_setNew, Bool.false_eq_true, if_false]
    cases hversion : reg.findBestVersion (requestName entry) (requestSpec entry) with
    | error e => exact ⟨e, rfl⟩
    | ok version =>
      rcases hunanswered with ⟨e, he⟩ | ⟨e, he⟩
      · rw [hversion] at he
        cases he
      · exact ⟨e, by simp only [he]⟩
  obtain ⟨e, he⟩ := hstep
  refine ⟨e, fun fuel => ?_⟩
  simp only [resolve, hne, Bool.false_eq_true, if_false, resolveLoop, he]

theorem returns_of_no_requests (reg : Registry) (hrequests : rootRequests table = []) (fuel : ℕ) :
    resolve reg table (fuel + 1) = some (.ok []) := by
  cases table with
  | nil => rfl
  | cons entry table =>
    simp only [resolve, List.isEmpty_cons, Bool.false_eq_true, if_false, resolveLoop, resolveStep,
      resolveStart, hrequests]

/-! ### Tables without requests -/

theorem mem_intercalate {c d : Char} {parts : List Text} :
    c ∈ List.intercalate [d] parts → c = d ∨ ∃ part ∈ parts, c ∈ part := by
  intro h
  induction parts with
  | nil => simp [List.intercalate] at h
  | cons part parts ih =>
    cases parts with
    | nil =>
      simp only [List.intercalate_singleton] at h
      exact Or.inr ⟨part, List.mem_cons_self, h⟩
    | cons next parts =>
      rw [List.intercalate_cons_cons, List.mem_append, List.mem_append, List.mem_singleton] at h
      rcases h with (h | h) | h
      · exact Or.inr ⟨part, List.mem_cons_self, h⟩
      · exact Or.inl h
      · rcases ih h with h | ⟨p, hp, hc⟩
        · exact Or.inl h
        · exact Or.inr ⟨p, List.mem_cons_of_mem _ hp, hc⟩

theorem mem_intercalate_of_mem {c d : Char} {part : Text} {parts : List Text} (hpart : part ∈ parts)
    (hc : c ∈ part) : c ∈ List.intercalate [d] parts := by
  induction parts with
  | nil => cases hpart
  | cons first parts ih =>
    cases parts with
    | nil =>
      rw [List.mem_singleton] at hpart
      subst hpart
      rwa [List.intercalate_singleton]
    | cons next parts =>
      rw [List.intercalate_cons_cons, List.mem_append, List.mem_append]
      rcases List.mem_cons.1 hpart with rfl | hpart
      · exact Or.inl (Or.inl hc)
      · exact Or.inr (ih hpart)

theorem trim_eq_nil {s : Text} : trim s = [] ↔ ∀ c ∈ s, isSpace c = true := by
  rw [trim, List.reverse_eq_nil_iff, List.dropWhile_eq_nil_iff]
  simp only [List.mem_reverse]
  constructor
  · intro h
    by_contra hs
    have hne : s.dropWhile isSpace ≠ [] := fun hnil => hs (List.dropWhile_eq_nil_iff.1 hnil)
    have hhead := List.head_dropWhile_not isSpace hne
    rw [h _ (List.head_mem hne)] at hhead
    cases hhead
  · intro h c hc
    exact h c (List.dropWhile_subset isSpace hc)

/-- Where nothing is requested, every name of the table is blank. -/
theorem blank_of_no_requests (hrequests : rootRequests table = [])
    {name spec : Text} (hmem : (name, spec) ∈ table) : trim name = [] := by
  have hkeys : keyList table = [] := List.map_eq_nil_iff.1 hrequests
  rw [trim_eq_nil]
  intro c hc
  have hjoined : c ∈ jsonKeys table :=
    mem_intercalate_of_mem (List.mem_map_of_mem hmem) hc
  have hne : (jsonKeys table).isEmpty = false := by
    cases h : jsonKeys table with
    | nil => rw [h] at hjoined; cases hjoined
    | cons => rfl
  rw [keyList, hne, if_neg Bool.false_ne_true, List.filter_eq_nil_iff] at hkeys
  have hparts : List.intercalate ['\n'] (split (jsonKeys table) '\n') = jsonKeys table :=
    List.intercalate_splitOn '\n'
  rw [← hparts] at hjoined
  rcases mem_intercalate hjoined with rfl | ⟨part, hpart, hcpart⟩
  · rfl
  · have hblank := hkeys (trim part) (List.mem_map_of_mem hpart)
    have hnil : trim part = [] := by simpa using hblank
    exact trim_eq_nil.1 hnil c hcpart

theorem closure_nil (hrequests : rootRequests table = []) : Closure reg table [] [] where
  listed := List.Forall₂.nil
  once := List.nodup_nil
  reachable := by
    intro name
    constructor
    · intro h
      cases h
    · intro h
      cases h with
      | root hmem hname => exact absurd (blank_of_no_requests hrequests hmem) hname
      | sub _ hparent _ => cases hparent
  meets := by
    intro name version spec h
    cases h

/-! ### When resolution is a closure -/

/-- Resolution returns the closure of the root exactly when the root requests nothing or the registry
has no answer to its first request; every other run goes on for ever. -/
theorem resolvesClosure_iff (reg : Registry) (table : DependencyTable) :
    ResolvesClosure reg table ↔ ∀ entry ∈ (rootRequests table).head?, Unanswered reg entry := by
  cases hrequests : rootRequests table with
  | nil =>
    simp only [List.head?_nil, Option.mem_def, reduceCtorEq, false_implies, implies_true, iff_true]
    have hrun := returns_of_no_requests reg hrequests
    refine ⟨⟨_, 1, hrun 0⟩, ?_⟩
    rintro list ⟨fuel, h⟩
    have hlist : list = [] := by
      cases fuel with
      | zero =>
        cases table with
        | nil => simpa [resolve] using h.symm
        | cons => simp [resolve, resolveLoop] at h
      | succ fuel =>
        rw [hrun fuel] at h
        cases h
        rfl
    subst hlist
    exact ⟨[], closure_nil hrequests⟩
  | cons entry rest =>
    simp only [List.head?_cons, Option.mem_def, Option.some.injEq, forall_eq']
    constructor
    · rintro ⟨⟨result, hreturns⟩, -⟩
      by_contra hanswered
      exact not_returns_of_answered hrequests hanswered result hreturns
    · intro hunanswered
      obtain ⟨e, he⟩ := returns_of_unanswered hrequests hunanswered
      refine ⟨⟨_, 1, he 0⟩, ?_⟩
      rintro list ⟨fuel, h⟩
      cases fuel with
      | zero =>
        cases table with
        | nil => simp [rootRequests, keyList, jsonKeys, List.intercalate] at hrequests
        | cons => simp [resolve, resolveLoop] at h
      | succ fuel =>
        rw [he fuel] at h
        cases h

/-- One package that depends on itself. -/
def selfRegistry : Registry where
  packages := [['a']]
  findBestVersion name _ := if name = ['a'] then .ok ['1'] else .error []
  getRepo name := if name = ['a'] then .ok ['r'] else .error []
  dependencies name _ := if name = ['a'] then [(['a'], ['>', '=', '1'])] else []
  known := by
    intro name spec version h
    split at h
    · next hname => exact List.mem_singleton.2 hname
    · cases h

theorem not_resolvesClosure_self : ¬ ResolvesClosure selfRegistry [(['a'], ['>', '=', '1'])] := by
  rintro ⟨⟨result, hreturns⟩, -⟩
  have hrequests : rootRequests [(['a'], ['>', '=', '1'])] =
      [['a', '\t', '"', '>', '=', '1', '"']] := by
    decide
  have hanswered : ¬ Unanswered selfRegistry ['a', '\t', '"', '>', '=', '1', '"'] := by
    rintro (⟨e, he⟩ | ⟨e, he⟩) <;> cases he
  exact not_returns_of_answered hrequests hanswered result hreturns

end Neutron.Pkg
