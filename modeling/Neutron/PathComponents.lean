import Mathlib.Data.List.Basic
import Mathlib.Tactic.Common

/-!
# Paths by components

A path is the sequence of its components, as `std::path` reads them from a text on Unix: two texts with
the same components differ only in repeated and trailing separators and in inner `.` pieces. Joining,
stripping a prefix and going to the parent work on components. Resolving `.` and `..` is lexical.
-/

namespace Neutron

/-- The root stands only first; `.` stands only first, and not after the root. -/
inductive Component where
  | rootDir
  | curDir
  | parentDir
  | normal (name : List Char)
  deriving DecidableEq

abbrev Path := List Component

namespace Path

/-- What a piece between separators is. Empty pieces and `.` are skipped. -/
def bodyComponent (piece : List Char) : Option Component :=
  if piece = [] ∨ piece = ['.'] then none
  else if piece = ['.', '.'] then some .parentDir
  else some (.normal piece)

def components (text : List Char) : Path :=
  let pieces := text.splitOn '/'
  let start : Path :=
    if text.head? = some '/' then [.rootDir] else if pieces.head? = some ['.'] then [.curDir] else []
  start ++ pieces.filterMap bodyComponent

/-- An absolute path replaces the base. -/
def join (base path : Path) : Path :=
  match path with
  | .rootDir :: _ => path
  | .curDir :: rest => if base = [] then path else base ++ rest
  | _ => base ++ path

def parent (p : Path) : Option Path :=
  match p.getLast? with
  | none | some .rootDir => none
  | some _ => some p.dropLast

def stripPrefix (p base : Path) : Option Path :=
  if base <+: p then some (p.drop base.length) else none

/-- One component taken from a resolved path. Nothing is above the root. -/
def enter (p : Path) : Component → Path
  | .rootDir => [.rootDir]
  | .curDir => p
  | .normal name => p ++ [.normal name]
  | .parentDir =>
    match p.getLast? with
    | some (.normal _) => p.dropLast
    | some .rootDir => p
    | _ => p ++ [.parentDir]

/-- Where a path leads from a resolved one. -/
def walk (p q : Path) : Path := q.foldl enter p

def resolve (p : Path) : Path := walk [] p

/-- The resolved path `p` is the resolved path `dest` or below it. -/
def Below (dest p : Path) : Prop := ∃ names : List (List Char), p = dest ++ names.map .normal

@[simp] theorem walk_nil (p : Path) : walk p [] = p := rfl

@[simp] theorem walk_cons (p : Path) (c : Component) (q : Path) : walk p (c :: q) = walk (enter p c) q := rfl

@[simp] theorem walk_append (p q r : Path) : walk p (q ++ r) = walk (walk p q) r := List.foldl_append

theorem enter_append_normal (p : Path) (name : List Char) : enter p (.normal name) = p ++ [.normal name] := rfl

theorem enter_parentDir_concat (p : Path) (name : List Char) :
    enter (p ++ [.normal name]) .parentDir = p := by
  simp only [enter, List.getLast?_concat, List.dropLast_concat]

/-- The place a joined path leads to is reached from the base by the other path. -/
theorem resolve_join (base path : Path) : resolve (base.join path) = walk (resolve base) path := by
  rcases path with _ | ⟨c, rest⟩
  · change resolve (base ++ []) = resolve base
    rw [List.append_nil]
  · cases c with
    | rootDir => rfl
    | curDir =>
      rw [join]
      by_cases hbase : base = []
      · rw [if_pos hbase, hbase]
        rfl
      · rw [if_neg hbase]
        exact walk_append [] base rest
    | parentDir => exact walk_append [] base _
    | normal name => exact walk_append [] base _

end Path
end Neutron
