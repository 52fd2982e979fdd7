import Mathlib.Logic.Relation
import Neutron.PackageInstall

/-!
# The integrity hash of a package

`compute_integrity` hashes the paths and contents of a package directory one after the other, without
anything between them. Text that moves from a file into its path, or from one file into the one before it,
leaves the hashed text as it is, and these are all the changes of the covered files that do.
-/

namespace Neutron.Pkg

/-! ### The hashed text -/

/-- `strings.contains` -/
def contains (s pat : Text) : Bool := s.tails.any pat.isPrefixOf

/-- A package directory: the paths `sys.walk` finds, in its order and with a slash after directories, and what
`sys.read` returns for a path, if it can be read. -/
structure PackageDir where
  walk : List Text
  read : Text → Option Text

/-- One round of the loop of `compute_integrity`. -/
def hashFile (read : Text → Option Text) (hashInput entry : Text) : Text :=
  let file := trim entry
  if file.isEmpty then hashInput
  else if contains file ".git".toList then hashInput
  else
    match read file with
    | some content => hashInput ++ file ++ content
    | none => hashInput

/-- What `compute_integrity` passes to `crypto.sha256`. -/
def hashInput (dir : PackageDir) : Text :=
  let files := List.intercalate ['\n'] dir.walk
  (split (trim files) '\n').foldl (hashFile dir.read) []

def computeIntegrity (sha256 : Text → Text) (dir : PackageDir) : Text := sha256 (hashInput dir)

/-! ### What is to be covered -/

/-- The files outside the `.git` directory. -/
def files (dir : PackageDir) : List Text :=
  dir.walk.filter fun path => path.getLast? ≠ some '/' ∧ ¬".git/".toList.isPrefixOf path ∧ path ≠ ".git".toList

/-- Two directories with other files, or with other content in a file that can be read. -/
def Differ (dir dir' : PackageDir) : Prop :=
  (∃ path, ¬(path ∈ files dir ↔ path ∈ files dir')) ∨
    ∃ path ∈ files dir, path ∈ files dir' ∧ dir.read path ≠ dir'.read path

/-- A file of a package: its path and its content. -/
abbrev File := Text × Text

/-- The file at a line of the listing, unless it cannot be read or its path has `.git` in it. -/
def coveredFile (read : Text → Option Text) (entry : Text) : Option File :=
  let file := trim entry
  if file.isEmpty || contains file ".git".toList then none else (read file).map (file, ·)

/-- The files of a directory that are hashed, in the order of the listing. -/
def covered (dir : PackageDir) : List File :=
  (split (trim (List.intercalate ['\n'] dir.walk)) '\n').filterMap (coveredFile dir.read)

/-- One change of the files that leaves the text in place: the beginning of a content goes over to the end of
the path, or a file is appended to the content of the one before it. -/
inductive Recut : List File → List File → Prop
  | move (front back : List File) (p r c : Text) (hpath : p ≠ []) :
    Recut (front ++ (p, r ++ c) :: back) (front ++ (p ++ r, c) :: back)
  | join (front back : List File) (p c q d : Text) (hpath : q ≠ []) :
    Recut (front ++ (p, c) :: (q, d) :: back) (front ++ (p, c ++ q ++ d) :: back)

/-- The text of some files. -/
def text (files : List File) : Text := (files.map fun file => file.1 ++ file.2).flatten

theorem text_cons (file : File) (files : List File) : text (file :: files) = file.1 ++ file.2 ++ text files := rfl

theorem text_append (front back : List File) : text (front ++ back) = text front ++ text back := by
  simp only [text, List.map_append, List.flatten_append]

theorem Recut.text_eq {files files' : List File} (h : Recut files files') : text files = text files' := by
  cases h with
  | move front back p r c => simp only [text_append, text_cons, List.append_assoc]
  | join front back p c q d => simp only [text_append, text_cons, List.append_assoc]

theorem text_eq_of_eqvGen {files files' : List File} (h : Relation.EqvGen Recut files files') :
    text files = text files' := by
  induction h with
  | rel files files' h => exact h.text_eq
  | refl files => rfl
  | symm files files' _ ih => exact ih.symm
  | trans files files' files'' _ _ ih ih' => exact ih.trans ih'

/-- The files joined into one whose path is a single character. -/
theorem eqvGen_single (x : Char) (p c : Text) (files : List File) (hpaths : ∀ file ∈ files, file.1 ≠ []) :
    Relation.EqvGen Recut ((x :: p, c) :: files) [([x], p ++ c ++ text files)] := by
  induction files generalizing c with
  | nil =>
    have hmove := Recut.move [] [] [x] p c (List.cons_ne_nil x [])
    rw [show text [] = [] from rfl, List.append_nil]
    exact .symm _ _ (.rel _ _ hmove)
  | cons file files ih =>
    obtain ⟨q, d⟩ := file
    have hjoin := Recut.join [] files (x :: p) c q d (hpaths (q, d) List.mem_cons_self)
    have hrest := ih (c ++ q ++ d) fun file hfile => hpaths file (List.mem_cons_of_mem _ hfile)
    rw [text_cons, ← List.append_assoc (p ++ c), List.append_assoc p c, ← List.append_assoc c]
    exact .trans _ _ _ (.rel _ _ hjoin) hrest

/-- Files with one text are cut from it in two ways. -/
theorem eqvGen_of_text_eq {files files' : List File} (hpaths : ∀ file ∈ files, file.1 ≠ [])
    (hpaths' : ∀ file ∈ files', file.1 ≠ []) (heq : text files = text files') :
    Relation.EqvGen Recut files files' := by
  rcases files with _ | ⟨⟨_ | ⟨x, p⟩, c⟩, files⟩
  · rcases files' with _ | ⟨⟨_ | ⟨y, q⟩, d⟩, files'⟩
    · exact .refl []
    · exact absurd rfl (hpaths' _ List.mem_cons_self)
    · cases heq
  · exact absurd rfl (hpaths _ List.mem_cons_self)
  · rcases files' with _ | ⟨⟨_ | ⟨y, q⟩, d⟩, files'⟩
    · cases heq
    · exact absurd rfl (hpaths' _ List.mem_cons_self)
    · have hone := eqvGen_single x p c files fun file hfile => hpaths file (List.mem_cons_of_mem _ hfile)
      have hone' := eqvGen_single y q d files' fun file hfile => hpaths' file (List.mem_cons_of_mem _ hfile)
      rw [text_cons, text_cons] at heq
      obtain ⟨rfl, htail⟩ := List.cons.inj heq
      have htail' : p ++ c ++ text files = q ++ d ++ text files' := htail
      rw [htail'] at hone
      exact .trans _ _ _ hone (.symm _ _ hone')

theorem hashFile_eq (read : Text → Option Text) (hashInput entry : Text) :
    hashFile read hashInput entry = hashInput ++ text (coveredFile read entry).toList := by
  by_cases hempty : (trim entry).isEmpty = true
  · simp only [hashFile, coveredFile, hempty, if_true, Bool.true_or, Option.toList_none, text, List.map_nil,
      List.flatten_nil, List.append_nil]
  · by_cases hgit : contains (trim entry) ".git".toList = true
    · simp only [hashFile, coveredFile, hempty, hgit, if_true, if_false, Bool.or_true, Bool.false_eq_true,
        Option.toList_none, text, List.map_nil, List.flatten_nil, List.append_nil]
    · simp only [hashFile, coveredFile, hempty, hgit, Bool.or_self, Bool.false_eq_true, if_false]
      cases read (trim entry) with
      | none => exact (List.append_nil hashInput).symm
      | some content =>
        rw [Option.map_some, Option.toList_some, text_cons, text, List.map_nil, List.flatten_nil, List.append_nil]
        exact List.append_assoc _ _ _

theorem hashInput_eq (dir : PackageDir) : hashInput dir = text (covered dir) := by
  have hfold : ∀ (entries : List Text) (hashed : Text), entries.foldl (hashFile dir.read) hashed =
      hashed ++ text (entries.filterMap (coveredFile dir.read)) := by
    intro entries
    induction entries with
    | nil => exact fun hashed => (List.append_nil hashed).symm
    | cons entry entries ih =>
      intro hashed
      rw [List.foldl_cons, ih, hashFile_eq, List.append_assoc, ← text_append, List.filterMap_cons]
      cases coveredFile dir.read entry with
      | none => rfl
      | some file => rfl
  exact hfold _ []

theorem covered_path (dir : PackageDir) : ∀ file ∈ covered dir, file.1 ≠ [] := by
  intro file hfile
  obtain ⟨entry, -, hentry⟩ := List.mem_filterMap.mp hfile
  by_cases hskip : ((trim entry).isEmpty || contains (trim entry) ".git".toList) = true
  · simp only [coveredFile, hskip, if_true] at hentry
    cases hentry
  · simp only [coveredFile, hskip, Bool.false_eq_true, if_false] at hentry
    obtain ⟨content, -, rfl⟩ := Option.map_eq_some_iff.mp hentry
    intro hnil
    have hpath : trim entry = [] := hnil
    rw [hpath] at hskip
    exact hskip rfl

end Neutron.Pkg
