import Mathlib.Data.Fintype.Card
import Mathlib.Data.List.Chain
import Neutron.FileImports
import Neutron.ModuleGraph

/-!
# Discovering the files of a program

`discover` reads the entry file, scans its tokens for file imports, resolves each of them and
visits the imported files depth first. A file that cannot be read and an import that does not
resolve inside the project stop the walk with an error, and so does an import of a file that is
still in progress. The file system is a parameter; its paths are canonical. The imports of the language
are those of the parsed `use` statements, which the tokens of a file need not show.
-/

namespace Neutron.Discovery
open Syntax ModuleGraph Source Relation

/-- What the walk asks of the file system: the tokens of a readable file, the file that a path
text names from the directory of a file, and whether a file is below the directory of another. -/
structure FileSystem (P : Type) where
  tokens : P → Option (List Token)
  canonicalize : P → String → Option P
  below : P → P → Bool

inductive ImportError (P : Type) where
  | io (path : P)
  | escapesProjectRoot (path : P) (imported : String)

inductive DiscoverError (P : Type) where
  | imports (e : ImportError P)
  | cycle (path : P) (chain : List P)
  | outOfFuel

/-- Where the scan of `file_imports` stands: between two imports, inside a `use` statement with
the string and the alias found so far, or right after its `as`. -/
inductive Scan where
  | between
  | inside (imported asName : Option String)
  | afterAs (imported : Option String) (asName : Option String)

/-- The import a `use` statement ends with, when it had a string. -/
def emit : Option String → Option String → List (String × Option String)
  | some imported, asName => [(imported, asName)]
  | none, _ => []

/-- The two loops of `file_imports` over the tokens of a file. -/
def scanImports : Scan → List Token → List (String × Option String)
  | .between, [] => []
  | .between, t :: rest =>
    if t.kind = .use then scanImports (.inside none none) rest else scanImports .between rest
  | .inside imported asName, [] => emit imported asName
  | .inside imported asName, t :: rest =>
    match t.kind with
    | .stringLiteral text => scanImports (.inside (some text) asName) rest
    | .as => scanImports (.afterAs imported asName) rest
    | .semicolon | .newline => emit imported asName ++ scanImports .between rest
    | _ => scanImports (.inside imported asName) rest
  | .afterAs imported asName, [] => emit imported asName
  | .afterAs imported _, t :: rest => scanImports (.inside imported (some t.lexeme)) rest

section
variable {P : Type} (fs : FileSystem P) (root : P)

def resolveImport (path : P) (imported : String) : Except (ImportError P) P :=
  let candidate := if ".nt".toList <:+ imported.toList then imported else imported ++ ".nt"
  match fs.canonicalize path candidate with
  | none => .error (.io path)
  | some canonical =>
    if fs.below root canonical then .ok canonical
    else .error (.escapesProjectRoot canonical imported)

def resolveImports (path : P) :
    List (String × Option String) → Except (ImportError P) (List (P × Option Name))
  | [] => .ok []
  | (imported, asName) :: rest =>
    match resolveImport fs root path imported with
    | .error e => .error e
    | .ok canonical =>
      match resolveImports path rest with
      | .error e => .error e
      | .ok imports => .ok ((canonical, asName) :: imports)

def fileImports (path : P) : Except (ImportError P) (List (P × Option Name)) :=
  match fs.tokens path with
  | none => .error (.io path)
  | some tokens => resolveImports fs root path (scanImports .between tokens)

end

section
variable {P : Type} [DecidableEq P]

/-- The loop of `visit` over the imports of a file, with the recursive call as `enter`. -/
def visitImports (enter : P → Walk P → Except (DiscoverError P) (Walk P)) (path : P) :
    List (P × Option Name) → Walk P → Except (DiscoverError P) (Walk P)
  | [], w => .ok w
  | (imported, asName) :: rest, w =>
    if imported ∈ w.stack then .error (.cycle path (w.stack ++ [imported]))
    else
      match enter imported (w.note path imported asName) with
      | .error e => .error e
      | .ok w => visitImports enter path rest w

def visit (imports : P → Except (ImportError P) (List (P × Option Name))) :
    ℕ → P → Walk P → Except (DiscoverError P) (Walk P)
  | 0, _, _ => .error .outOfFuel
  | fuel + 1, path, w =>
    if path ∈ w.seen then .ok w
    else
      match imports path with
      | .error e => .error (.imports e)
      | .ok found =>
        match visitImports (visit imports fuel) path found
            { w with seen := path :: w.seen, stack := w.stack ++ [path] } with
        | .error e => .error e
        | .ok w => .ok { w with stack := w.stack.dropLast, files := w.files ++ [path] }

/-- The walk from a canonical entry file, whose directory is the project root. -/
def discover (fs : FileSystem P) (fuel : ℕ) (entry : P) : Except (DiscoverError P) (Walk P) :=
  visit (fileImports fs entry) fuel entry ⟨[], [], fun _ => none, [], []⟩

end

/-! ### Import graphs -/

section
variable {P : Type} (r : P → P → Prop)

def Reachable (entry f : P) : Prop := ReflTransGen r entry f

/-- Some reachable file imports itself, directly or not. -/
def HasCycle (entry : P) : Prop := ∃ f, Reachable r entry f ∧ TransGen r f f

/-- Every file comes after the files it imports. -/
def Sorted (files : List P) : Prop :=
  ∀ before g after, files = before ++ g :: after → ∀ f, r g f → f ∈ before

/-- The files of a graph without cycles: the reachable ones, each once, with every imported file
before its importers and the entry last. -/
structure Topological [DecidableEq P] (entry : P) (files : List P) : Prop where
  mem_iff : ∀ f, f ∈ files ↔ Reachable r entry f
  nodup : files.Nodup
  before : ∀ g ∈ files, ∀ f, r g f → files.idxOf f < files.idxOf g
  last : files.getLast? = some entry

end

section
variable {P : Type} {r r' : P → P → Prop} {entry : P}

theorem reachable_mono (hsub : ∀ g, Reachable r' entry g → ∀ f, r g f → r' g f) {f : P}
    (h : Reachable r entry f) : Reachable r' entry f := by
  induction h with
  | refl => exact .refl
  | tail _ hf ih => exact .tail ih (hsub _ ih _ hf)

theorem hasCycle_mono (hsub : ∀ g, Reachable r' entry g → ∀ f, r g f → r' g f) (h : HasCycle r entry) :
    HasCycle r' entry := by
  obtain ⟨f, hf, hcycle⟩ := h
  have hpath : ∀ g, TransGen r f g → TransGen r' f g := by
    intro g hg
    induction hg with
    | single hstep => exact .single (hsub _ (reachable_mono hsub hf) _ hstep)
    | tail hpath hstep ih =>
      exact .tail ih (hsub _ (reachable_mono hsub (hf.trans hpath.to_reflTransGen)) _ hstep)
  exact ⟨f, reachable_mono hsub hf, hpath f hcycle⟩

/-- Graphs that agree at the reachable files of the one have the same reachable files. -/
theorem reachable_congr (hagree : ∀ g, Reachable r entry g → ∀ f, r g f ↔ r' g f) (f : P) :
    Reachable r entry f ↔ Reachable r' entry f := by
  have hback : ∀ g, Reachable r' entry g → Reachable r entry g :=
    fun g => reachable_mono fun g hg f => (hagree g hg f).mpr
  exact ⟨reachable_mono fun g hg f => (hagree g (hback g hg) f).mp, hback f⟩

theorem hasCycle_congr (hagree : ∀ g, Reachable r entry g → ∀ f, r g f ↔ r' g f) :
    HasCycle r entry ↔ HasCycle r' entry :=
  ⟨hasCycle_mono fun g hg f => (hagree g ((reachable_congr hagree g).mpr hg) f).mp,
    hasCycle_mono fun g hg f => (hagree g hg f).mpr⟩

theorem Topological.congr [DecidableEq P] {files : List P} (h : Topological r entry files)
    (hagree : ∀ g, Reachable r entry g → ∀ f, r g f ↔ r' g f) : Topological r' entry files where
  mem_iff f := (h.mem_iff f).trans (reachable_congr hagree f)
  nodup := h.nodup
  before g hg f hf := h.before g hg f ((hagree g ((h.mem_iff g).mp hg) f).mpr hf)
  last := h.last

end

/-! ### The graph of the walk -/

section
variable {P : Type} (imports : P → Except (ImportError P) (List (P × Option Name)))

/-- The walk finds the second file among the imports of the first. -/
def Imports (g f : P) : Prop := ∃ found asName, imports g = .ok found ∧ (f, asName) ∈ found

/-- What an error of the walk says about the graph. -/
def Explained (entry : P) : DiscoverError P → Prop
  | .imports e => ∃ f, Reachable (Imports imports) entry f ∧ imports f = .error e
  | .cycle _ _ => HasCycle (Imports imports) entry
  | .outOfFuel => False

/-- The accumulators between two steps of the walk: the finished files are sorted, and the files
in progress form a path of imports. -/
structure Walking (entry : P) (w : Walk P) : Prop where
  reachable : ∀ f ∈ w.seen, Reachable (Imports imports) entry f
  seen_iff : ∀ f, f ∈ w.seen ↔ f ∈ w.files ∨ f ∈ w.stack
  nodup : w.files.Nodup
  disjoint : ∀ f ∈ w.files, f ∉ w.stack
  sorted : Sorted (Imports imports) w.files
  path : w.stack.IsChain (Imports imports)

/-- What a part of the walk leaves: the same files in progress, with more files finished. -/
structure Continues (w w' : Walk P) : Prop where
  stack : w'.stack = w.stack
  files : ∀ f ∈ w.files, f ∈ w'.files
  seen : ∀ f ∈ w.seen, f ∈ w'.seen

end

section
variable {P : Type} {imports : P → Except (ImportError P) (List (P × Option Name))} {entry : P}

theorem Continues.refl (w : Walk P) : Continues w w := ⟨rfl, fun _ => id, fun _ => id⟩

theorem Continues.trans {w₁ w₂ w₃ : Walk P} (h₁ : Continues w₁ w₂) (h₂ : Continues w₂ w₃) :
    Continues w₁ w₃ where
  stack := h₂.stack.trans h₁.stack
  files f hf := h₂.files f (h₁.files f hf)
  seen f hf := h₂.seen f (h₁.seen f hf)

/-- Sorted files only import sorted files. -/
theorem Sorted.closed {r : P → P → Prop} {files : List P} (h : Sorted r files) {g f : P} (hg : g ∈ files)
    (hf : r g f) : f ∈ files := by
  obtain ⟨before, after, hsplit⟩ := List.append_of_mem hg
  rw [hsplit]
  exact List.mem_append_left _ (h before g after hsplit f hf)

theorem Sorted.concat {r : P → P → Prop} {files : List P} (h : Sorted r files) {path : P}
    (hdone : ∀ f, r path f → f ∈ files) : Sorted r (files ++ [path]) := by
  intro before g after hsplit f hf
  rcases List.eq_nil_or_concat after with rfl | ⟨front, last, rfl⟩
  · obtain ⟨rfl, hlast⟩ := List.append_inj' hsplit rfl
    obtain rfl : path = g := by simpa using hlast
    exact hdone f hf
  · have hsame : files ++ [path] = (before ++ g :: front) ++ [last] := by
      rw [hsplit]
      simp
    exact h before g front (List.append_inj' hsame rfl).1 f hf

/-- A chain of imports leads from each of its files to the last. -/
theorem reaches_last {stack : List P} {f last : P}
    (hchain : (stack ++ [last]).IsChain (Imports imports)) (hf : f ∈ stack ++ [last]) :
    ReflTransGen (Imports imports) f last := by
  induction stack generalizing f with
  | nil =>
    obtain rfl : f = last := by simpa using hf
    exact .refl
  | cons g stack ih =>
    rw [List.cons_append, List.isChain_cons] at hchain
    rcases List.mem_cons.mp hf with rfl | hf
    · cases stack with
      | nil => exact .single (hchain.1 last (by simp))
      | cons h rest => exact .head (hchain.1 h (by simp)) (ih hchain.2 (by simp))
    · exact ih hchain.2 hf

theorem Walking.note [DecidableEq P] {w : Walk P} (hw : Walking imports entry w) (path imported : P)
    (asName : Option Name) : Walking imports entry (w.note path imported asName) where
  reachable := hw.reachable
  seen_iff := hw.seen_iff
  nodup := hw.nodup
  disjoint := hw.disjoint
  sorted := hw.sorted
  path := hw.path

/-- Entering a file that is not seen yet, from the file last in progress. -/
theorem Walking.enter {w : Walk P} (hw : Walking imports entry w) {path : P}
    (hpath : Reachable (Imports imports) entry path) (hnew : path ∉ w.seen)
    (hfrom : ∀ g ∈ w.stack.getLast?, Imports imports g path) :
    Walking imports entry { w with seen := path :: w.seen, stack := w.stack ++ [path] } where
  reachable f hf := by
    rcases List.mem_cons.mp hf with rfl | hf
    · exact hpath
    · exact hw.reachable f hf
  seen_iff f := by
    have := hw.seen_iff f
    simp only [List.mem_cons, List.mem_append, List.not_mem_nil, or_false]
    tauto
  nodup := hw.nodup
  disjoint f hf hstack := by
    rcases List.mem_append.mp hstack with h | h
    · exact hw.disjoint f hf h
    · obtain rfl : f = path := by simpa using h
      exact hnew ((hw.seen_iff f).mpr (.inl hf))
  sorted := hw.sorted
  path := by
    refine List.isChain_append.mpr ⟨hw.path, List.isChain_singleton _, fun g hg f hf => ?_⟩
    obtain rfl : path = f := by simpa using hf
    exact hfrom g hg

/-- Leaving a file whose imports are finished. -/
theorem Walking.leave {w : Walk P} (hw : Walking imports entry w) {path : P} {stack : List P}
    (hstack : w.stack = stack ++ [path]) (hlow : path ∉ stack)
    (hdone : ∀ f, Imports imports path f → f ∈ w.files) :
    Walking imports entry { w with stack := w.stack.dropLast, files := w.files ++ [path] } where
  reachable := hw.reachable
  seen_iff f := by
    have := hw.seen_iff f
    simp only [hstack, List.mem_append, List.mem_singleton, List.dropLast_concat] at this ⊢
    tauto
  nodup := by
    rw [List.nodup_append]
    refine ⟨hw.nodup, List.pairwise_singleton _ _, fun f hf g hg => ?_⟩
    obtain rfl : g = path := by simpa using hg
    exact fun h => hw.disjoint f hf (by simp [hstack, h])
  disjoint f hf := by
    simp only [hstack, List.dropLast_concat]
    rcases List.mem_append.mp hf with hf | hf
    · exact fun h => hw.disjoint f hf (hstack ▸ List.mem_append_left _ h)
    · rwa [List.mem_singleton.mp hf]
  sorted := hw.sorted.concat hdone
  path := by
    have hpath := hw.path
    rw [hstack] at hpath
    simpa [hstack] using (List.isChain_append.mp hpath).1

end

/-! ### Every visit finishes its file or explains its error -/

section
variable {P : Type} {imports : P → Except (ImportError P) (List (P × Option Name))} {entry : P}

/-- What a visit of `path` gives. -/
def Outcome (imports : P → Except (ImportError P) (List (P × Option Name))) (entry : P)
    (w : Walk P) (path : P) : Except (DiscoverError P) (Walk P) → Prop
  | .ok w' => Walking imports entry w' ∧ Continues w w' ∧ path ∈ w'.files
  | .error e => Explained imports entry e

/-- What the loop over the imports of a file gives. -/
def ImportsOutcome (imports : P → Except (ImportError P) (List (P × Option Name))) (entry : P)
    (w : Walk P) (found : List (P × Option Name)) : Except (DiscoverError P) (Walk P) → Prop
  | .ok w' => Walking imports entry w' ∧ Continues w w' ∧ ∀ i ∈ found, i.1 ∈ w'.files
  | .error e => Explained imports entry e

variable [DecidableEq P]

theorem visitImports_outcome {enter : P → Walk P → Except (DiscoverError P) (Walk P)} {path : P}
    {stack : List P} {found : List (P × Option Name)} {w : Walk P}
    (hw : Walking imports entry w) (hstack : w.stack = stack ++ [path])
    (hfound : ∀ i ∈ found, Imports imports path i.1)
    (henter : ∀ i ∈ found, ∀ v, Walking imports entry v → Continues w v → i.1 ∉ v.stack →
      Outcome imports entry v i.1 (enter i.1 v)) :
    ImportsOutcome imports entry w found (visitImports enter path found w) := by
  induction found generalizing w with
  | nil => exact ⟨hw, .refl w, by simp⟩
  | cons i rest ih =>
    obtain ⟨imported, asName⟩ := i
    have himport : Imports imports path imported := hfound _ List.mem_cons_self
    rw [visitImports]
    by_cases hprogress : imported ∈ w.stack
    · rw [if_pos hprogress]
      have hpath : path ∈ w.seen := (hw.seen_iff path).mpr (.inr (by simp [hstack]))
      have hback : ReflTransGen (Imports imports) imported path :=
        reaches_last (hstack ▸ hw.path) (hstack ▸ hprogress)
      exact ⟨path, hw.reachable path hpath, .head' himport hback⟩
    · rw [if_neg hprogress]
      have hvisit := henter _ List.mem_cons_self (w.note path imported asName)
        (hw.note path imported asName) ⟨rfl, fun _ => id, fun _ => id⟩ hprogress
      cases hentered : enter imported (w.note path imported asName) with
      | error e =>
        rw [hentered] at hvisit
        exact hvisit
      | ok v =>
        rw [hentered] at hvisit
        obtain ⟨walking, continues, finished⟩ := hvisit
        have hcontinues : Continues w v := ⟨continues.stack, continues.files, continues.seen⟩
        have hrest := ih walking (hcontinues.stack.trans hstack)
          (fun j hj => hfound j (List.mem_cons_of_mem _ hj))
          (fun j hj u hu hvu => henter j (List.mem_cons_of_mem _ hj) u hu (hcontinues.trans hvu))
        dsimp only
        cases hlast : visitImports enter path rest v with
        | error e =>
          rw [hlast] at hrest
          exact hrest
        | ok w' =>
          rw [hlast] at hrest
          obtain ⟨hwalking, hafter, hfiles⟩ := hrest
          refine ⟨hwalking, hcontinues.trans hafter, fun j hj => ?_⟩
          rcases List.mem_cons.mp hj with rfl | hj
          · exact hafter.files _ finished
          · exact hfiles j hj

variable [Fintype P]

/-- The number of files the walk has not seen. -/
def unseen (w : Walk P) : ℕ := (w.seen.toFinsetᶜ).card

theorem Continues.unseen_le {w w' : Walk P} (h : Continues w w') : unseen w' ≤ unseen w := by
  refine Finset.card_le_card (Finset.compl_subset_compl.mpr fun f hf => ?_)
  exact List.mem_toFinset.mpr (h.seen f (List.mem_toFinset.mp hf))

theorem unseen_enter {w : Walk P} {path : P} (hnew : path ∉ w.seen) (stack : List P) :
    unseen { w with seen := path :: w.seen, stack := stack } < unseen w := by
  refine Finset.card_lt_card (Finset.ssubset_iff_subset_ne.mpr ⟨?_, fun h => ?_⟩)
  · intro f hf
    simp only [Finset.mem_compl, List.mem_toFinset, List.mem_cons, not_or] at hf ⊢
    exact hf.2
  · have hmem : path ∈ (w.seen.toFinsetᶜ : Finset P) := by simpa using hnew
    rw [← h] at hmem
    simp at hmem

theorem visit_outcome (fuel : ℕ) :
    ∀ (path : P) (w : Walk P), unseen w < fuel → Walking imports entry w →
      Reachable (Imports imports) entry path → path ∉ w.stack →
      (∀ g ∈ w.stack.getLast?, Imports imports g path) →
      Outcome imports entry w path (visit imports fuel path w) := by
  induction fuel with
  | zero => intro path w hfuel; omega
  | succ fuel ih =>
    intro path w hfuel hw hpath hlow hfrom
    rw [visit]
    by_cases hseen : path ∈ w.seen
    · rw [if_pos hseen]
      exact ⟨hw, .refl w, ((hw.seen_iff path).mp hseen).resolve_right hlow⟩
    · rw [if_neg hseen]
      cases hfound : imports path with
      | error e => exact ⟨path, hpath, hfound⟩
      | ok found =>
        dsimp only
        have himports : ∀ f, Imports imports path f ↔ ∃ i ∈ found, i.1 = f := by
          intro f
          simp [Imports, hfound]
        have hfew := unseen_enter hseen (w.stack ++ [path])
        have hloop := visitImports_outcome (hw.enter hpath hseen hfrom) rfl
          (fun i hi => (himports i.1).mpr ⟨i, hi, rfl⟩)
          (fun i hi v hv hcontinues hfresh => by
            refine ih i.1 v ?_ hv ?_ hfresh ?_
            · have := hcontinues.unseen_le
              omega
            · exact hpath.tail ((himports i.1).mpr ⟨i, hi, rfl⟩)
            · intro g hg
              rw [hcontinues.stack] at hg
              obtain rfl : path = g := by simpa using hg
              exact (himports i.1).mpr ⟨i, hi, rfl⟩)
        cases hlast : visitImports (visit imports fuel) path found
            { w with seen := path :: w.seen, stack := w.stack ++ [path] } with
        | error e =>
          rw [hlast] at hloop
          exact hloop
        | ok v =>
          rw [hlast] at hloop
          obtain ⟨walking, continues, finished⟩ := hloop
          refine ⟨walking.leave continues.stack hlow fun f hf => ?_, ⟨?_, ?_, ?_⟩, ?_⟩
          · obtain ⟨i, hi, rfl⟩ := (himports f).mp hf
            exact finished i hi
          · simp [continues.stack]
          · exact fun f hf => List.mem_append_left _ (continues.files f hf)
          · exact fun f hf => continues.seen f (List.mem_cons_of_mem _ hf)
          · exact List.mem_append_right _ List.mem_cons_self

end

/-! ### The order of the discovered files -/

section
variable {P : Type} {imports : P → Except (ImportError P) (List (P × Option Name))} {entry : P}
variable {r : P → P → Prop} [DecidableEq P]

theorem Sorted.idxOf_lt {files : List P} (h : Sorted r files) {g f : P} (hg : g ∈ files)
    (hf : r g f) : files.idxOf f < files.idxOf g := by
  obtain ⟨before, after, hsplit, hnot⟩ := List.eq_append_cons_of_mem hg
  have hbefore : f ∈ before := h before g after hsplit f hf
  have hg' : files.idxOf g = before.length := by
    rw [hsplit, List.idxOf_append_of_notMem hnot]
    simp
  have hf' : files.idxOf f = before.idxOf f := by
    rw [hsplit, List.idxOf_append_of_mem hbefore]
  rw [hg', hf']
  exact List.idxOf_lt_length_of_mem hbefore

theorem Sorted.idxOf_lt_of_transGen {files : List P} (h : Sorted r files) {g f : P}
    (hg : g ∈ files) (hpath : TransGen r g f) :
    f ∈ files ∧ files.idxOf f < files.idxOf g := by
  induction hpath with
  | single hf => exact ⟨h.closed hg hf, h.idxOf_lt hg hf⟩
  | tail _ hf ih => exact ⟨h.closed ih.1 hf, (h.idxOf_lt ih.1 hf).trans ih.2⟩

/-- A visit ends with its file. -/
theorem visit_getLast {fuel : ℕ} {path : P} {w w' : Walk P} (hnew : path ∉ w.seen)
    (h : visit imports fuel path w = .ok w') : w'.files.getLast? = some path := by
  cases fuel with
  | zero => simp [visit] at h
  | succ fuel =>
    rw [visit, if_neg hnew] at h
    cases hfound : imports path with
    | error e => simp [hfound] at h
    | ok found =>
      simp only [hfound] at h
      split at h
      · cases h
      · obtain rfl := Except.ok.inj h
        simp

theorem Walking.topological {w : Walk P} (hw : Walking imports entry w)
    (hentry : entry ∈ w.files) (hlast : w.files.getLast? = some entry) :
    Topological (Imports imports) entry w.files where
  mem_iff f := by
    constructor
    · exact fun hf => hw.reachable f ((hw.seen_iff f).mpr (.inl hf))
    · intro hf
      induction hf with
      | refl => exact hentry
      | tail _ himport ih => exact hw.sorted.closed ih himport
  nodup := hw.nodup
  before g hg f hf := hw.sorted.idxOf_lt hg hf
  last := hlast

theorem Topological.not_hasCycle {files : List P} (h : Topological r entry files)
    (hsorted : Sorted r files) : ¬ HasCycle r entry := by
  rintro ⟨f, hf, hcycle⟩
  exact lt_irrefl _ (hsorted.idxOf_lt_of_transGen ((h.mem_iff f).mpr hf) hcycle).2

variable [Fintype P]

/-- What the walk from the entry gives with enough fuel. -/
theorem discover_cases (fs : FileSystem P) {fuel : ℕ} (hfuel : Fintype.card P < fuel) (entry : P) :
    (∃ e, discover fs fuel entry = .error e ∧ Explained (fileImports fs entry) entry e) ∨
    ∃ graph, discover fs fuel entry = .ok graph ∧
      Topological (Imports (fileImports fs entry)) entry graph.files ∧
      ¬ HasCycle (Imports (fileImports fs entry)) entry := by
  have hstart : Walking (fileImports fs entry) entry ⟨[], [], fun _ => none, [], []⟩ :=
    ⟨by simp, by simp, by simp, by simp, fun before g after h => by simp at h, by simp⟩
  have houtcome := visit_outcome fuel entry ⟨[], [], fun _ => none, [], []⟩
    ((Finset.card_le_univ _).trans_lt hfuel) hstart .refl (by simp) (by simp)
  cases hresult : visit (fileImports fs entry) fuel entry ⟨[], [], fun _ => none, [], []⟩ with
  | error e =>
    rw [hresult] at houtcome
    exact .inl ⟨e, hresult, houtcome⟩
  | ok graph =>
    rw [hresult] at houtcome
    obtain ⟨walking, continues, finished⟩ := houtcome
    have htopological := walking.topological finished
      (visit_getLast (by simp) hresult)
    exact .inr ⟨graph, hresult, htopological, htopological.not_hasCycle walking.sorted⟩

end

/-! ### The imports of the language -/

section
variable {P : Type} (fs : FileSystem P) (root : P)

/-- A `use` statement of the first file names the second. -/
def UsesFile (g f : P) : Prop :=
  ∃ tokens statements path, fs.tokens g = some tokens ∧ program tokens = some statements ∧
    path ∈ stmtsUses statements ∧ resolveImport fs root g path = .ok f

/-- A string after a `use` token of the first file names the second. -/
def ShowsFile (g f : P) : Prop :=
  ∃ tokens paths path, fs.tokens g = some tokens ∧ Shows tokens paths ∧ path ∈ paths ∧
    resolveImport fs root g path = .ok f

/-- Every file reached can be read and parsed; no line after a `use` token has two strings; these strings
resolve, and the paths of the `use` statements are among them. -/
def Legible (entry : P) : Prop :=
  ∀ g, Reachable (ShowsFile fs entry) entry g → ∃ tokens statements paths, fs.tokens g = some tokens ∧
    program tokens = some statements ∧ Shows tokens paths ∧ (∀ path ∈ stmtsUses statements, path ∈ paths) ∧
    ∀ path ∈ paths, ∃ f, resolveImport fs entry g path = .ok f

/-- What only the tokens show closes no cycle and leads to no other file. -/
def Harmless (entry : P) : Prop :=
  (HasCycle (ShowsFile fs entry) entry → HasCycle (UsesFile fs entry) entry) ∧
    (¬ HasCycle (UsesFile fs entry) entry →
      ∀ f, Reachable (ShowsFile fs entry) entry f → Reachable (UsesFile fs entry) entry f)

/-- The walk finds a cycle exactly when the imports of the language have one, and otherwise sorts the
files. -/
def Discovers [DecidableEq P] (fuel : ℕ) (entry : P) : Prop :=
  ((∃ path chain, discover fs fuel entry = .error (.cycle path chain)) ↔ HasCycle (UsesFile fs entry) entry) ∧
    (¬ HasCycle (UsesFile fs entry) entry → ∃ graph, discover fs fuel entry = .ok graph ∧
      Topological (UsesFile fs entry) entry graph.files)

end

/-! ### What the scan finds -/

theorem scan_quiet {t : Token} (ht : Quiet t) (imported asName : Option String) (rest : List Token) :
    scanImports (.inside imported asName) (t :: rest) = scanImports (.inside imported asName) rest := by
  obtain ⟨kind, span⟩ := t
  obtain ⟨hstring, has, hsemicolon, hnewline⟩ := ht
  cases kind with
  | stringLiteral text => cases hstring
  | as => exact absurd rfl has
  | semicolon => exact absurd rfl hsemicolon
  | newline => exact absurd rfl hnewline
  | _ => rfl

theorem scan_line {line : List Token} {path : Option String} (h : UseLine line path) (rest : List Token) :
    ∃ asName, scanImports (.inside none none) (line ++ rest) = scanImports (.inside path asName) rest := by
  induction h generalizing rest with
  | nil => exact ⟨none, rfl⟩
  | quiet t _ ht ih =>
    obtain ⟨asName, heq⟩ := ih (t :: rest)
    rw [List.append_assoc, List.singleton_append, heq, scan_quiet ht]
    exact ⟨asName, rfl⟩
  | file text span _ ih =>
    obtain ⟨asName, heq⟩ := ih (⟨.stringLiteral text, span⟩ :: rest)
    rw [List.append_assoc, List.singleton_append, heq]
    exact ⟨asName, rfl⟩
  | named span name _ _ ih =>
    obtain ⟨asName, heq⟩ := ih (⟨.as, span⟩ :: name :: rest)
    rw [List.append_assoc, List.cons_append, List.singleton_append, heq]
    exact ⟨some name.lexeme, rfl⟩

/-- At the end of a line the import is emitted, and the scan goes on. -/
theorem scan_end {tokens : List Token} (hend : EndsLine tokens) (imported asName : Option String) :
    scanImports (.inside imported asName) tokens = emit imported asName ++ scanImports .between tokens := by
  cases tokens with
  | nil => exact (List.append_nil _).symm
  | cons t rest =>
    obtain ⟨kind, span⟩ := t
    rcases hend _ rfl with h | h
    · obtain rfl : kind = .semicolon := h
      rfl
    · obtain rfl : kind = .newline := h
      rfl

theorem emit_fst (imported asName : Option String) : (emit imported asName).map Prod.fst = imported.toList := by
  cases imported with
  | none => rfl
  | some path => rfl

theorem scan_shows {tokens : List Token} {paths : List String} (h : Shows tokens paths) :
    (scanImports .between tokens).map Prod.fst = paths := by
  induction h with
  | nil => rfl
  | other t ht _ ih => rw [scanImports, if_neg ht, ih]
  | use span hline hend _ ih =>
    obtain ⟨asName, heq⟩ := scan_line hline _
    rw [scanImports, if_pos rfl, heq, scan_end hend, List.map_append, ih, emit_fst]

section
variable {P : Type} {fs : FileSystem P} {root path : P}

/-- Imports that all resolve. -/
theorem resolveImports_ok {named : List (String × Option String)}
    (h : ∀ i ∈ named, ∃ f, resolveImport fs root path i.1 = .ok f) :
    ∃ found, resolveImports fs root path named = .ok found ∧
      ∀ f, (∃ asName, (f, asName) ∈ found) ↔ ∃ i ∈ named, resolveImport fs root path i.1 = .ok f := by
  induction named with
  | nil => exact ⟨[], rfl, fun f => by simp⟩
  | cons i rest ih =>
    obtain ⟨imported, asName⟩ := i
    obtain ⟨canonical, hcanonical⟩ := h _ List.mem_cons_self
    obtain ⟨found, hfound, hmem⟩ := ih fun j hj => h j (List.mem_cons_of_mem _ hj)
    refine ⟨(canonical, asName) :: found, by rw [resolveImports, hcanonical, hfound], fun f => ?_⟩
    rw [List.exists_mem_cons_iff, ← hmem f, hcanonical, Except.ok.injEq]
    constructor
    · rintro ⟨a, ha⟩
      rcases List.mem_cons.mp ha with heq | ha
      · exact Or.inl (Prod.mk.inj heq).1.symm
      · exact Or.inr ⟨a, ha⟩
    · rintro (rfl | ⟨a, ha⟩)
      · exact ⟨asName, List.mem_cons_self⟩
      · exact ⟨a, List.mem_cons_of_mem _ ha⟩

theorem Legible.imports {entry : P} (h : Legible fs entry) {g : P} (hg : Reachable (ShowsFile fs entry) entry g) :
    ∃ found, fileImports fs entry g = .ok found ∧
      ∀ f, Imports (fileImports fs entry) g f ↔ ShowsFile fs entry g f := by
  obtain ⟨tokens, statements, paths, htokens, -, hshows, -, hresolve⟩ := h g hg
  have hscan := scan_shows hshows
  have hnamed : ∀ i ∈ scanImports .between tokens, ∃ f, resolveImport fs entry g i.1 = .ok f := by
    intro i hi
    apply hresolve
    rw [← hscan]
    exact List.mem_map_of_mem hi
  obtain ⟨found, hfound, hmem⟩ := resolveImports_ok hnamed
  have hok : fileImports fs entry g = .ok found := by
    rw [fileImports, htokens]
    exact hfound
  refine ⟨found, hok, fun f => ?_⟩
  constructor
  · rintro ⟨found', asName, hok', hf⟩
    obtain rfl : found = found' := Except.ok.inj (hok.symm.trans hok')
    obtain ⟨i, hi, hif⟩ := (hmem f).mp ⟨asName, hf⟩
    refine ⟨tokens, paths, i.1, htokens, hshows, ?_, hif⟩
    rw [← hscan]
    exact List.mem_map_of_mem hi
  · rintro ⟨tokens', paths', path, htokens', hshows', hpath, hf⟩
    obtain rfl : tokens = tokens' := Option.some.inj (htokens.symm.trans htokens')
    rw [← scan_shows hshows'] at hpath
    obtain ⟨i, hi, rfl⟩ := List.mem_map.mp hpath
    obtain ⟨asName, hmemf⟩ := (hmem f).mpr ⟨i, hi, hf⟩
    exact ⟨found, asName, hok, hmemf⟩

theorem Legible.uses {entry : P} (h : Legible fs entry) (g : P) (hg : Reachable (ShowsFile fs entry) entry g)
    (f : P) (hf : UsesFile fs entry g f) : ShowsFile fs entry g f := by
  obtain ⟨tokens, statements, paths, htokens, hprogram, hshows, hsub, -⟩ := h g hg
  obtain ⟨tokens', statements', path, htokens', hprogram', hpath, hresolve⟩ := hf
  obtain rfl : tokens = tokens' := Option.some.inj (htokens.symm.trans htokens')
  obtain rfl : statements = statements' := Option.some.inj (hprogram.symm.trans hprogram')
  exact ⟨tokens, paths, path, htokens, hshows, hsub path hpath, hresolve⟩

/-- Files whose tokens show their imports and nothing else. -/
theorem legible_of_shows {entry : P}
    (h : ∀ g, ∃ tokens statements, fs.tokens g = some tokens ∧ program tokens = some statements ∧
      Shows tokens (stmtsUses statements) ∧ ∀ path ∈ stmtsUses statements, ∃ f, resolveImport fs entry g path = .ok f) :
    Legible fs entry ∧ Harmless fs entry := by
  have hsub : ∀ g f, ShowsFile fs entry g f → UsesFile fs entry g f := by
    rintro g f ⟨tokens, paths, path, htokens, hshows, hpath, hf⟩
    obtain ⟨tokens', statements, htokens', hprogram, hshows', -⟩ := h g
    obtain rfl : tokens' = tokens := Option.some.inj (htokens'.symm.trans htokens)
    rw [← scan_shows hshows, scan_shows hshows'] at hpath
    exact ⟨tokens', statements, path, htokens, hprogram, hpath, hf⟩
  refine ⟨fun g _ => ?_, hasCycle_mono fun g _ f => hsub g f, fun _ _ => reachable_mono fun g _ f => hsub g f⟩
  obtain ⟨tokens, statements, htokens, hprogram, hshows, hresolve⟩ := h g
  exact ⟨tokens, statements, _, htokens, hprogram, hshows, fun _ => id, hresolve⟩

variable [DecidableEq P] [Fintype P]

/-- On legible files the walk finds a cycle of what the tokens show, or sorts the files. -/
theorem Legible.discover_cases {entry : P} (h : Legible fs entry) {fuel : ℕ} (hfuel : Fintype.card P < fuel) :
    (∃ path chain, discover fs fuel entry = .error (.cycle path chain) ∧ HasCycle (ShowsFile fs entry) entry) ∨
    ∃ graph, discover fs fuel entry = .ok graph ∧ Topological (ShowsFile fs entry) entry graph.files ∧
      ¬ HasCycle (ShowsFile fs entry) entry := by
  have hagree : ∀ g, Reachable (ShowsFile fs entry) entry g →
      ∀ f, ShowsFile fs entry g f ↔ Imports (fileImports fs entry) g f := by
    intro g hg f
    obtain ⟨found, -, himports⟩ := h.imports hg
    exact (himports f).symm
  have hreach := reachable_congr hagree
  have hcycle := hasCycle_congr hagree
  rcases Discovery.discover_cases fs hfuel entry with ⟨e, hresult, hexplained⟩ | ⟨graph, hresult, hsorted, hnone⟩
  · cases e with
    | imports e =>
      obtain ⟨f, hf, herror⟩ := hexplained
      obtain ⟨found, hfound, -⟩ := h.imports ((hreach f).mpr hf)
      rw [herror] at hfound
      cases hfound
    | cycle path chain => exact Or.inl ⟨path, chain, hresult, hcycle.mpr hexplained⟩
    | outOfFuel => exact hexplained.elim
  · refine Or.inr ⟨graph, hresult, hsorted.congr fun g hg f => ?_, fun hc => hnone (hcycle.mp hc)⟩
    exact (hagree g ((hreach g).mpr hg) f).symm

end

/-- `use "left"` and `use "right"` in the entry, and `use "base"` in both of these. -/
def diamond : FileSystem (Fin 4) where
  tokens
    | 0 => some [⟨.use, .dummy⟩, ⟨.stringLiteral "left", .dummy⟩, ⟨.newline, .dummy⟩,
        ⟨.use, .dummy⟩, ⟨.stringLiteral "right", .dummy⟩, ⟨.eof, .dummy⟩]
    | 3 => some [⟨.eof, .dummy⟩]
    | _ => some [⟨.use, .dummy⟩, ⟨.stringLiteral "base", .dummy⟩, ⟨.eof, .dummy⟩]
  canonicalize
    | _, "left.nt" => some 1
    | _, "right.nt" => some 2
    | _, "base.nt" => some 3
    | _, _ => none
  below _ _ := true

theorem shows_last (path : String) :
    Shows [⟨.use, .dummy⟩, ⟨.stringLiteral path, .dummy⟩, ⟨.eof, .dummy⟩] [path] :=
  .use .dummy (.quiet _ (.file path .dummy .nil) (by decide)) endsLine_nil .nil

theorem legible_diamond : Legible diamond 0 ∧ Harmless diamond 0 := by
  apply legible_of_shows
  intro g
  match g with
  | 0 =>
    refine ⟨_, _, rfl, rfl, ?_, ?_⟩
    · exact .use .dummy (.file "left" .dummy .nil) (endsLine_newline _ _) (.other _ (by decide) (shows_last "right"))
    · intro path hpath
      rcases List.mem_cons.mp hpath with rfl | hpath
      · exact ⟨1, rfl⟩
      · rw [List.mem_singleton.mp hpath]
        exact ⟨2, rfl⟩
  | 1 | 2 =>
    refine ⟨_, _, rfl, rfl, shows_last "base", fun path hpath => ⟨3, ?_⟩⟩
    rw [List.mem_singleton.mp hpath]
    rfl
  | 3 => exact ⟨_, _, rfl, rfl, .other _ (by decide) .nil, fun path hpath => absurd hpath List.not_mem_nil⟩

example : (discover diamond 5 0).toOption.map Walk.files = some [3, 1, 2, 0] := rfl

/-- `say(config.use == "fast")`, beside a file `fast.nt` that nothing imports. -/
def misuse : FileSystem Bool where
  tokens
    | false => some [⟨.say, .dummy⟩, ⟨.leftParen, .dummy⟩, ⟨.identifier "config", .dummy⟩, ⟨.dot, .dummy⟩,
        ⟨.use, .dummy⟩, ⟨.equalEqual, .dummy⟩, ⟨.stringLiteral "fast", .dummy⟩, ⟨.rightParen, .dummy⟩,
        ⟨.eof, .dummy⟩]
    | true => some [⟨.eof, .dummy⟩]
  canonicalize
    | _, "fast.nt" => some true
    | _, _ => none
  below _ _ := true

theorem usesFile_misuse {g f : Bool} : ¬ UsesFile misuse false g f := by
  rintro ⟨tokens, statements, path, htokens, hprogram, hpath, -⟩
  have hnone : ((misuse.tokens g).bind program).map stmtsUses = some [] := by
    match g with
    | false => rfl
    | true => rfl
  rw [htokens, Option.bind_some, hprogram, Option.map_some, Option.some.injEq] at hnone
  rw [hnone] at hpath
  cases hpath

theorem legible_misuse : Legible misuse false := by
  intro g _
  match g with
  | false =>
    have hline : UseLine [⟨.equalEqual, .dummy⟩, ⟨.stringLiteral "fast", .dummy⟩, ⟨.rightParen, .dummy⟩,
        ⟨.eof, .dummy⟩] (some "fast") :=
      .quiet _ (.quiet _ (.file "fast" .dummy (.quiet _ .nil (by decide))) (by decide)) (by decide)
    refine ⟨_, _, ["fast"], rfl, rfl, ?_, fun path hpath => absurd hpath List.not_mem_nil,
      fun path hpath => ⟨true, ?_⟩⟩
    · exact .other _ (by decide) (.other _ (by decide) (.other _ (by decide) (.other _ (by decide)
        (.use .dummy hline endsLine_nil .nil))))
    · rw [List.mem_singleton.mp hpath]
      rfl
  | true =>
    exact ⟨_, _, [], rfl, rfl, .other _ (by decide) .nil, fun path hpath => absurd hpath List.not_mem_nil,
      fun path hpath => absurd hpath List.not_mem_nil⟩

end Neutron.Discovery
