import Mathlib.Data.List.Lemmas
import Mathlib.Logic.Relation
import Neutron.ModuleAliases

/-!
# Discovering and merging modules

`discover` walks the file imports of the entry file depth first and `merge` appends the files in
that post-order to one flat program, with the files that some import names with `as` rewritten
under that alias. Paths are canonical and their files readable. Positions are left out.
-/

namespace Neutron.ModuleGraph
open Syntax Aliases

/-- A file: the imports its tokens name, in order, and its parsed statements. The lexer never
puts a colon in an identifier. -/
structure SourceFile (P : Type) where
  imports : List (P × Option Name)
  statements : List Stmt
  plain_alias : ∀ i ∈ imports, ∀ a, i.2 = some a → ':' ∉ a.toList
  plain_declared : ∀ d ∈ topLevelNames statements, ':' ∉ d.toList

inductive LoadError (P : Type) where
  | cycle (path : P) (chain : List P)
  | outOfFuel

/-- The accumulators of `visit`; `aliases` is the map from files to aliases. -/
structure Walk (P : Type) where
  files : List P
  edges : List (P × P)
  aliases : P → Option Name
  seen : List P
  stack : List P

section
variable {P : Type} [DecidableEq P]

/-- What `visit` notes of an import before it enters it. -/
def Walk.note (w : Walk P) (path imported : P) (asName : Option Name) : Walk P :=
  { w with
    edges := w.edges ++ [(path, imported)]
    aliases := match asName with
      | some a => Function.update w.aliases imported (some a)
      | none => w.aliases }

/-- The loop of `visit` over the imports of a file, with the recursive call as `enter`. -/
def visitImports (enter : P → Walk P → Except (LoadError P) (Walk P)) (path : P) :
    List (P × Option Name) → Walk P → Except (LoadError P) (Walk P)
  | [], w => .ok w
  | (imported, asName) :: rest, w =>
    if imported ∈ w.stack then .error (.cycle path (w.stack ++ [imported]))
    else
      match enter imported (w.note path imported asName) with
      | .error e => .error e
      | .ok w => visitImports enter path rest w

def visit (source : P → SourceFile P) : ℕ → P → Walk P → Except (LoadError P) (Walk P)
  | 0, _, _ => .error .outOfFuel
  | fuel + 1, path, w =>
    if path ∈ w.seen then .ok w
    else
      match visitImports (visit source fuel) path (source path).imports
          { w with seen := path :: w.seen, stack := w.stack ++ [path] } with
      | .error e => .error e
      | .ok w => .ok { w with stack := w.stack.dropLast, files := w.files ++ [path] }

def discover (source : P → SourceFile P) (fuel : ℕ) (entry : P) :
    Except (LoadError P) (Walk P) :=
  visit source fuel entry ⟨[], [], fun _ => none, [], []⟩

end

section
variable {P : Type} (source : P → SourceFile P)

def own (f : P) : List Name := topLevelNames (source f).statements

/-- A statement of a file as it stands in the merged program. -/
def placeStmt (aliases : P → Option Name) (f : P) (s : Stmt) : Stmt :=
  match aliases f with
  | some a => Rewriter.stmt ⟨a, own source f⟩ [] s
  | none => s

/-- The statements of a file, namespaced when the file has an alias. -/
def place (aliases : P → Option Name) (f : P) : List Stmt :=
  match aliases f with
  | some a => namespaced (source f).statements a (own source f)
  | none => (source f).statements

/-- Imports of files are dropped, except those with an alias. -/
def kept : Stmt → Bool
  | .use _ true _ none => false
  | _ => true

/-- The merged statements with the files they come from. -/
def merge (graph : Walk P) : List (P × Stmt) :=
  graph.files.flatMap fun f => ((place source graph.aliases f).filter kept).map fun s => (f, s)

/-- The files the entry file imports, directly or not, and itself. -/
def Loaded (entry f : P) : Prop :=
  Relation.ReflTransGen (fun g f => ∃ asName, (f, asName) ∈ (source g).imports) entry f

/-- Some loaded file imports `f` under this alias; for `none`, no loaded file imports `f` under
an alias. -/
def ImportedAs (entry f : P) : Option Name → Prop
  | some a => ∃ g, Loaded source entry g ∧ (f, some a) ∈ (source g).imports
  | none => ∀ g, Loaded source entry g → ∀ a, (f, some a) ∉ (source g).imports

/-! ### The walk -/

/-- What holds of the accumulators between two steps of the walk from `entry`. The files are
finished and their imports are; `stack` holds those in progress. -/
structure Walked (entry : P) (w : Walk P) : Prop where
  loaded : ∀ f ∈ w.seen, Loaded source entry f
  seen_iff : ∀ f, f ∈ w.seen ↔ f ∈ w.files ∨ f ∈ w.stack
  nodup : w.files.Nodup
  disjoint : ∀ f ∈ w.files, f ∉ w.stack
  closed : ∀ g ∈ w.files, ∀ i ∈ (source g).imports, i.1 ∈ w.files
  named : ∀ f a, w.aliases f = some a → ∃ g ∈ w.seen, (f, some a) ∈ (source g).imports
  noted : ∀ g ∈ w.files, ∀ f a, (f, some a) ∈ (source g).imports → w.aliases f ≠ none

/-- What a part of the walk does not undo. -/
structure Extends (w w' : Walk P) : Prop where
  stack : w'.stack = w.stack
  files : ∀ f ∈ w.files, f ∈ w'.files
  noted : ∀ f, w.aliases f ≠ none → w'.aliases f ≠ none

theorem Extends.trans {w₁ w₂ w₃ : Walk P} (h₁ : Extends w₁ w₂) (h₂ : Extends w₂ w₃) :
    Extends w₁ w₃ where
  stack := h₂.stack.trans h₁.stack
  files f hf := h₂.files f (h₁.files f hf)
  noted f hf := h₂.noted f (h₁.noted f hf)

/-- What a visit of `path` gives. -/
structure Visited (source : P → SourceFile P) (entry : P) (w w' : Walk P) (path : P) : Prop where
  walked : Walked source entry w'
  extension : Extends w w'
  finished : path ∈ w'.files

/-- What `discover` returns for an acyclic graph: the loaded files, each once, with an alias for
every file that a loaded file imports under one. -/
structure Discovered (source : P → SourceFile P) (entry : P) (graph : Walk P) : Prop where
  files_iff : ∀ f, f ∈ graph.files ↔ Loaded source entry f
  nodup : graph.files.Nodup
  named : ∀ f a, graph.aliases f = some a → ImportedAs source entry f (some a)
  noted : ∀ f, graph.aliases f = none → ImportedAs source entry f none

end

section
variable {P : Type} [DecidableEq P] {source : P → SourceFile P} {entry : P}

theorem Walk.note_extends (w : Walk P) (path imported : P) (asName : Option Name) :
    Extends w (w.note path imported asName) where
  stack := rfl
  files f hf := hf
  noted f hf := by
    cases asName with
    | none => exact hf
    | some a =>
      by_cases h : f = imported
      · subst h
        simp [note]
      · simpa [note, Function.update_of_ne h] using hf

theorem Walk.note_noted (w : Walk P) (path imported : P) (a : Name) :
    (w.note path imported (some a)).aliases imported ≠ none := by
  simp [note]

theorem Walked.note {w : Walk P} (hw : Walked source entry w) {path imported : P}
    {asName : Option Name} (hpath : path ∈ w.seen)
    (hmem : (imported, asName) ∈ (source path).imports) :
    Walked source entry (w.note path imported asName) where
  loaded := hw.loaded
  seen_iff := hw.seen_iff
  nodup := hw.nodup
  disjoint := hw.disjoint
  closed := hw.closed
  named f a hf := by
    cases asName with
    | none => exact hw.named f a hf
    | some b =>
      by_cases h : f = imported
      · subst h
        have hb : b = a := by simpa [Walk.note] using hf
        subst hb
        exact ⟨path, hpath, hmem⟩
      · exact hw.named f a (by simpa [Walk.note, Function.update_of_ne h] using hf)
  noted g hg f a hf := (w.note_extends path imported asName).noted f (hw.noted g hg f a hf)

/-- Entering a file that is not seen yet. -/
theorem Walked.enter {w : Walk P} (hw : Walked source entry w) {path : P}
    (hpath : Loaded source entry path) (hnew : path ∉ w.seen) :
    Walked source entry { w with seen := path :: w.seen, stack := w.stack ++ [path] } where
  loaded f hf := by
    rcases List.mem_cons.mp hf with rfl | hf
    · exact hpath
    · exact hw.loaded f hf
  seen_iff f := by
    have := hw.seen_iff f
    simp only [List.mem_cons, List.mem_append, List.not_mem_nil, or_false]
    tauto
  nodup := hw.nodup
  disjoint f hf hstack := by
    rcases List.mem_append.mp hstack with h | h
    · exact hw.disjoint f hf h
    · rw [List.mem_singleton] at h
      subst h
      exact hnew ((hw.seen_iff f).mpr (.inl hf))
  closed := hw.closed
  named f a hf := by
    obtain ⟨g, hg, h⟩ := hw.named f a hf
    exact ⟨g, List.mem_cons_of_mem _ hg, h⟩
  noted := hw.noted

/-- Leaving a file whose imports are finished. -/
theorem Walked.leave {w : Walk P} (hw : Walked source entry w) {path : P} {stack : List P}
    (hstack : w.stack = stack ++ [path]) (hlow : path ∉ stack)
    (hdone : ∀ i ∈ (source path).imports, i.1 ∈ w.files)
    (hnoted : ∀ f a, (f, some a) ∈ (source path).imports → w.aliases f ≠ none) :
    Walked source entry { w with stack := w.stack.dropLast, files := w.files ++ [path] } where
  loaded := hw.loaded
  seen_iff f := by
    have := hw.seen_iff f
    simp only [hstack, List.mem_append, List.mem_singleton, List.dropLast_concat] at this ⊢
    tauto
  nodup := by
    rw [List.nodup_append]
    refine ⟨hw.nodup, List.pairwise_singleton _ _, fun f hf g hg => ?_⟩
    rw [List.mem_singleton] at hg
    subst hg
    exact fun h => hw.disjoint f hf (by simp [hstack, h])
  disjoint f hf := by
    simp only [hstack, List.dropLast_concat]
    rcases List.mem_append.mp hf with hf | hf
    · exact fun h => hw.disjoint f hf (hstack ▸ List.mem_append_left _ h)
    · rwa [List.mem_singleton.mp hf]
  closed g hg i hi := by
    rcases List.mem_append.mp hg with hg | hg
    · exact List.mem_append_left _ (hw.closed g hg i hi)
    · rw [List.mem_singleton] at hg
      subst hg
      exact List.mem_append_left _ (hdone i hi)
  named := hw.named
  noted g hg f a hf := by
    rcases List.mem_append.mp hg with hg | hg
    · exact hw.noted g hg f a hf
    · rw [List.mem_singleton] at hg
      subst hg
      exact hnoted f a hf

theorem visitImports_ok {enter : P → Walk P → Except (LoadError P) (Walk P)} {path : P}
    {imports : List (P × Option Name)} {w : Walk P} (hw : Walked source entry w)
    (hpath : path ∈ w.stack) (hmem : ∀ i ∈ imports, i ∈ (source path).imports)
    (hstack : ∀ i ∈ imports, i.1 ∉ w.stack)
    (henter : ∀ i ∈ imports, ∀ v, Walked source entry v → v.stack = w.stack →
      ∃ v', enter i.1 v = .ok v' ∧ Visited source entry v v' i.1) :
    ∃ w', visitImports enter path imports w = .ok w' ∧ Walked source entry w' ∧ Extends w w' ∧
      (∀ i ∈ imports, i.1 ∈ w'.files) ∧
      ∀ f a, (f, some a) ∈ imports → w'.aliases f ≠ none := by
  induction imports generalizing w with
  | nil => exact ⟨w, rfl, hw, ⟨rfl, fun _ => id, fun _ => id⟩, by simp, by simp⟩
  | cons i rest ih =>
    obtain ⟨imported, asName⟩ := i
    have hseen : path ∈ w.seen := (hw.seen_iff path).mpr (.inr hpath)
    have hnote := hw.note hseen (hmem _ List.mem_cons_self)
    obtain ⟨v, hv, visited⟩ := henter _ List.mem_cons_self _ hnote rfl
    have hext : Extends w v := (w.note_extends path imported asName).trans visited.extension
    have hsame : v.stack = w.stack := hext.stack
    obtain ⟨w', hw', walked, extension, finished, noted⟩ := ih (w := v) visited.walked
      (hsame ▸ hpath) (fun j hj => hmem j (List.mem_cons_of_mem _ hj))
      (fun j hj => hsame ▸ hstack j (List.mem_cons_of_mem _ hj))
      (fun j hj u hu hs => henter j (List.mem_cons_of_mem _ hj) u hu (hs.trans hsame))
    refine ⟨w', ?_, walked, hext.trans extension, ?_, ?_⟩
    · simp only [visitImports, if_neg (hstack _ List.mem_cons_self), hv]
      exact hw'
    · intro j hj
      rcases List.mem_cons.mp hj with rfl | hj
      · exact extension.files _ visited.finished
      · exact finished j hj
    · intro f a hf
      rcases List.mem_cons.mp hf with h | hf
      · obtain ⟨rfl, rfl⟩ := Prod.mk.inj h
        exact extension.noted _ (visited.extension.noted _ (w.note_noted path _ a))
      · exact noted f a hf

/-- In an acyclic graph a visit finishes its file: no file of the stack can be imported again. -/
theorem visit_ok {rank : P → ℕ}
    (hrank : ∀ f, ∀ i ∈ (source f).imports, rank i.1 < rank f) (fuel : ℕ) :
    ∀ (path : P) (w : Walk P), rank path < fuel → Walked source entry w →
      Loaded source entry path → (∀ g ∈ w.stack, rank path < rank g) →
      ∃ w', visit source fuel path w = .ok w' ∧ Visited source entry w w' path := by
  induction fuel with
  | zero => intro path w hfuel; omega
  | succ fuel ih =>
    intro path w hfuel hw hpath hstack
    have hlow : path ∉ w.stack := fun h => lt_irrefl _ (hstack path h)
    by_cases hseen : path ∈ w.seen
    · have hfile : path ∈ w.files := ((hw.seen_iff path).mp hseen).resolve_right hlow
      exact ⟨w, by simp [visit, hseen], hw, ⟨rfl, fun _ => id, fun _ => id⟩, hfile⟩
    · have habove : ∀ i ∈ (source path).imports, ∀ g ∈ w.stack ++ [path], rank i.1 < rank g := by
        intro i hi g hg
        have := hrank path i hi
        rcases List.mem_append.mp hg with hg | hg
        · exact this.trans (hstack g hg)
        · rwa [List.mem_singleton.mp hg]
      obtain ⟨v, hv, walked, extension, finished, noted⟩ :=
        @visitImports_ok _ _ source entry (visit source fuel) path _ _ (hw.enter hpath hseen)
          (List.mem_append_right _ List.mem_cons_self) (fun _ => id)
          (fun i hi h => lt_irrefl _ (habove i hi _ h))
          (fun i hi u hu hs => by
            refine ih i.1 u ?_ hu (hpath.tail ⟨i.2, hi⟩) (hs ▸ habove i hi)
            have := hrank path i hi
            omega)
      refine ⟨{ v with stack := v.stack.dropLast, files := v.files ++ [path] },
        by simp only [visit, if_neg hseen, hv], ?_, ?_, ?_⟩
      · exact walked.leave extension.stack hlow finished noted
      · refine ⟨?_, fun f hf => ?_, extension.noted⟩
        · simp [extension.stack]
        · exact List.mem_append_left _ (extension.files f hf)
      · exact List.mem_append_right _ List.mem_cons_self

theorem discover_ok {rank : P → ℕ}
    (hrank : ∀ f, ∀ i ∈ (source f).imports, rank i.1 < rank f) {entry : P} {fuel : ℕ}
    (hfuel : rank entry < fuel) :
    ∃ graph, discover source fuel entry = .ok graph ∧ Discovered source entry graph := by
  have hstart : Walked source entry ⟨[], [], fun _ => none, [], []⟩ := by
    constructor <;> simp
  obtain ⟨graph, hgraph, walked, extension, finished⟩ :=
    visit_ok hrank fuel entry _ hfuel hstart .refl (by simp)
  have hseen : ∀ f, f ∈ graph.seen ↔ f ∈ graph.files := by
    intro f
    simp [walked.seen_iff, extension.stack]
  have hfiles : ∀ f, f ∈ graph.files ↔ Loaded source entry f := by
    intro f
    constructor
    · intro hf
      exact walked.loaded f ((hseen f).mpr hf)
    · intro hf
      induction hf with
      | refl => exact finished
      | tail _ hi ih =>
        obtain ⟨asName, hi⟩ := hi
        exact walked.closed _ ih _ hi
  refine ⟨graph, hgraph, hfiles, walked.nodup, ?_, ?_⟩
  · intro f a hf
    obtain ⟨g, hg, hi⟩ := walked.named f a hf
    exact ⟨g, walked.loaded g hg, hi⟩
  · intro f hf g hg a hi
    exact walked.noted g ((hfiles g).mpr hg) f a hi hf

end

end Neutron.ModuleGraph
