import Mathlib.Data.String.Basic
import Neutron.ModuleGraph

/-!
# References across merged modules

An importer writes a declaration `d` of a file bare or as `alias.d`. The aliases are kept by
file, so a reference reaches its declaration in the merged program only if the imports of the
whole graph fit together, and `resolved_iff_consistent` says how.
-/

namespace Neutron.ModuleGraph
open Syntax Aliases

section
variable {P : Type} (source : P → SourceFile P)

/-- An expression of a file, outside every local scope, as it stands in the merged program. -/
def placeExpr (aliases : P → Option Name) (f : P) (e : Expr) : Expr :=
  match aliases f with
  | some a => Rewriter.expr ⟨a, own source f⟩ [] e
  | none => e

/-- How an importer writes the declaration `d` of a file it imports. -/
def reference (asName : Option Name) (d : Name) : Expr :=
  match asName with
  | none => .var d
  | some a => .operator (.member d) [.var a]

/-- The global name an expression refers to: `arm.f` is dispatched to `arm::f`. -/
def target : Expr → Option Name
  | .var x => some x
  | .operator (.member d) [.var a] => some (a ++ "::" ++ d)
  | _ => none

/-- The merged program has every loaded file once, and each reference of an importer to a
declaration of an imported file names what that file declares under this name, and nothing
else. -/
structure Resolved [DecidableEq P] (entry : P) (graph : Walk P) : Prop where
  once : ∀ f, Loaded source entry f →
    (merge source graph).filter (fun m => m.1 = f) =
      (((source f).statements.map (placeStmt source graph.aliases f)).filter kept).map
        fun s => (f, s)
  names : ∀ g, Loaded source entry g → ∀ f asName, (f, asName) ∈ (source g).imports →
    ∀ d ∈ own source f,
      (merge source graph).filter (fun m => declared m.2 =
          target (placeExpr source graph.aliases g (reference asName d))) =
        ((source f).statements.filter (fun s => declared s = some d)).map
          fun s => (f, placeStmt source graph.aliases f s)

/-- The name at the head of a reference. -/
def head (asName : Option Name) (d : Name) : Name := asName.getD d

/-- The imports of the loaded files fit together: all imports of a file name it the same way,
files that are named the same way share no declaration that an importer can refer to, and a file
that is imported under an alias does not itself declare the head of a reference it makes. -/
structure Consistent (entry : P) : Prop where
  agreed : ∀ g g' f asName asName', Loaded source entry g → Loaded source entry g' →
    (f, asName) ∈ (source g).imports → (f, asName') ∈ (source g').imports →
    own source f ≠ [] → asName = asName'
  apart : ∀ g f asName f' d, Loaded source entry g → (f, asName) ∈ (source g).imports →
    Loaded source entry f' → d ∈ own source f → d ∈ own source f' → f' ≠ f →
    ¬ ImportedAs source entry f' asName
  unshadowed : ∀ g f asName a, Loaded source entry g → (f, asName) ∈ (source g).imports →
    ImportedAs source entry g (some a) → ∀ d ∈ own source f, head asName d ∉ own source g

end

/-! ### Names in the merged program -/

/-- The name of a declaration in the merged program. -/
def mergedName (asName : Option Name) (d : Name) : Name :=
  match asName with
  | none => d
  | some a => a ++ "::" ++ d

theorem qualified_inj {a b d e : Name} (ha : ':' ∉ a.toList) (hb : ':' ∉ b.toList)
    (h : a ++ "::" ++ d = b ++ "::" ++ e) : a = b ∧ d = e := by
  have hlist : a.toList ++ ':' :: ':' :: d.toList = b.toList ++ ':' :: ':' :: e.toList := by
    simpa using congrArg String.toList h
  have hlength : a.toList.length = b.toList.length := by
    have := congrArg (List.idxOf ':') hlist
    simpa [List.idxOf_append_of_notMem ha, List.idxOf_append_of_notMem hb] using this
  obtain ⟨hfront, hrest⟩ := List.append_inj hlist hlength
  refine ⟨String.toList_injective hfront, String.toList_injective ?_⟩
  simpa using hrest

theorem qualified_not_plain (a d : Name) : ':' ∈ (a ++ "::" ++ d).toList := by
  simp

theorem ne_qualified (a d : Name) : d ≠ a ++ "::" ++ d := by
  intro h
  have hlength := congrArg String.length h
  have hcolons : "::".length = 2 := rfl
  rw [String.length_append, String.length_append, hcolons] at hlength
  omega

theorem mergedName_inj {as bs : Option Name} {d e : Name}
    (has : ∀ a, as = some a → ':' ∉ a.toList) (hbs : ∀ b, bs = some b → ':' ∉ b.toList)
    (hd : ':' ∉ d.toList) (he : ':' ∉ e.toList) (h : mergedName as d = mergedName bs e) :
    as = bs ∧ d = e := by
  cases as with
  | none =>
    cases bs with
    | none => exact ⟨rfl, h⟩
    | some b =>
      have hqualified : d = b ++ "::" ++ e := h
      exact absurd (hqualified ▸ qualified_not_plain b e) hd
  | some a =>
    cases bs with
    | none =>
      have hqualified : a ++ "::" ++ d = e := h
      exact absurd (hqualified ▸ qualified_not_plain a d) he
    | some b =>
      obtain ⟨hab, hde⟩ := qualified_inj (has a rfl) (hbs b rfl) h
      exact ⟨congrArg some hab, hde⟩

theorem target_reference (asName : Option Name) (d : Name) :
    target (reference asName d) = some (mergedName asName d) := by
  cases asName <;> rfl

theorem declared_stmt (r : Rewriter) (s : Stmt) (h : ∀ d, declared s = some d → d ∈ r.own) :
    declared (r.stmt [] s) = (declared s).map r.rename := by
  cases s with
  | var name _ _ isStatic _ _ =>
    cases isStatic with
    | false => rfl
    | true => simp_all [declared, Rewriter.stmt, Rewriter.idToken, Rewriter.shouldRename]
  | tryCatch body handler last =>
    rcases handler with _ | ⟨x, handler⟩ <;> rfl
  | retry count body handler =>
    rcases handler with _ | ⟨x, handler⟩ <;> rfl
  | _ => simp_all [declared, Rewriter.stmt, Rewriter.idToken, Rewriter.shouldRename]

theorem stmts_eq_map (r : Rewriter) (scope : List Name) (statements : List Stmt) :
    r.stmts scope statements = statements.map (r.stmt scope) := by
  induction statements with
  | nil => rfl
  | cons s rest ih => simp [Rewriter.stmts, ih]

theorem kept_of_declared {s : Stmt} {n : Name} (h : declared s = some n) : kept s = true := by
  cases s <;> simp_all [declared, kept]

/-- Only one member of a list without repetitions contributes. -/
theorem flatMap_eq_of_unique {α β : Type} {l : List α} (hl : l.Nodup) {a : α} (ha : a ∈ l)
    {g : α → List β} (h : ∀ b ∈ l, b ≠ a → g b = []) : l.flatMap g = g a := by
  induction l with
  | nil => simp at ha
  | cons b rest ih =>
    obtain ⟨hb, hrest⟩ := List.nodup_cons.mp hl
    rw [List.flatMap_cons]
    rcases List.mem_cons.mp ha with rfl | ha
    · have hnil : rest.flatMap g = [] := by
        refine List.flatMap_eq_nil_iff.mpr fun c hc => ?_
        exact h c (List.mem_cons_of_mem _ hc) fun hca => hb (hca ▸ hc)
      rw [hnil, List.append_nil]
    · rw [h b List.mem_cons_self fun hba => hb (hba ▸ ha), List.nil_append]
      exact ih hrest ha fun c hc => h c (List.mem_cons_of_mem _ hc)

section
variable {P : Type} {source : P → SourceFile P} {entry : P}

theorem place_eq_map (aliases : P → Option Name) (f : P) :
    place source aliases f = (source f).statements.map (placeStmt source aliases f) := by
  unfold place placeStmt
  cases aliases f with
  | none => simp
  | some a => exact stmts_eq_map _ _ _

theorem declared_placeStmt (aliases : P → Option Name) {f : P} {s : Stmt}
    (hs : s ∈ (source f).statements) :
    declared (placeStmt source aliases f s) = (declared s).map (mergedName (aliases f)) := by
  unfold placeStmt
  cases aliases f with
  | none => cases declared s <;> rfl
  | some a =>
    refine declared_stmt ⟨a, own source f⟩ s fun d hd => ?_
    exact List.mem_filterMap.mpr ⟨s, hs, hd⟩

/-- The merged declarations of a name are, file by file, those that get this name. -/
theorem merge_filter_declared (graph : Walk P) (n : Name) :
    (merge source graph).filter (fun m => declared m.2 = some n) =
      graph.files.flatMap fun f =>
        ((source f).statements.filter fun s =>
          (declared s).map (mergedName (graph.aliases f)) = some n).map
            fun s => (f, placeStmt source graph.aliases f s) := by
  rw [merge, List.filter_flatMap]
  refine List.flatMap_congr fun f _ => ?_
  rw [place_eq_map, List.filter_map, List.filter_filter, List.filter_map, List.map_map]
  refine congrArg (List.map _) (List.filter_congr fun s hs => ?_)
  rw [Function.comp_apply, Function.comp_apply, declared_placeStmt graph.aliases hs]
  by_cases h : (declared s).map (mergedName (graph.aliases f)) = some n
  · have hkept := kept_of_declared ((declared_placeStmt graph.aliases hs).trans h)
    simp [h, hkept]
  · simp [h]

theorem mem_merge_filter {graph : Walk P} (hgraph : Discovered source entry graph) {f : P}
    (hf : Loaded source entry f) {s : Stmt} (hs : s ∈ (source f).statements) {n : Name}
    (hn : (declared s).map (mergedName (graph.aliases f)) = some n) :
    (f, placeStmt source graph.aliases f s) ∈
      (merge source graph).filter (fun m => declared m.2 = some n) := by
  rw [merge_filter_declared]
  refine List.mem_flatMap.mpr ⟨f, (hgraph.files_iff f).mpr hf, List.mem_map.mpr ⟨s, ?_, rfl⟩⟩
  simpa [hs] using hn

theorem mem_own_iff {f : P} {d : Name} :
    d ∈ own source f ↔ ∃ s ∈ (source f).statements, declared s = some d := by
  simp [own, topLevelNames]

theorem plain_of_importedAs {f : P} {a : Name} (h : ImportedAs source entry f (some a)) :
    ':' ∉ a.toList := by
  obtain ⟨g, -, hi⟩ := h
  exact (source g).plain_alias _ hi a rfl

/-- A reference whose head is not a name of a namespaced importer stays as it is. -/
theorem placeExpr_reference {aliases : P → Option Name} {g : P} {asName : Option Name} {d : Name}
    (h : ∀ b, aliases g = some b → head asName d ∉ own source g) :
    placeExpr source aliases g (reference asName d) = reference asName d := by
  unfold placeExpr
  cases hg : aliases g with
  | none => rfl
  | some b =>
    have hhead := h b hg
    cases asName with
    | none => simp_all [reference, head, Rewriter.expr, Rewriter.idToken, Rewriter.shouldRename]
    | some a =>
      simp_all [reference, head, Rewriter.expr, Rewriter.exprs, Rewriter.idToken,
        Rewriter.shouldRename]

/-- A reference whose head is a name of a namespaced importer is captured. -/
theorem target_placeExpr_captured {aliases : P → Option Name} {g : P} {asName : Option Name}
    {d b : Name} (hg : aliases g = some b) (h : head asName d ∈ own source g) :
    target (placeExpr source aliases g (reference asName d)) =
      some (b ++ "::" ++ mergedName asName d) := by
  unfold placeExpr
  rw [hg]
  cases asName with
  | none =>
    simp_all [reference, head, Rewriter.expr, Rewriter.idToken, Rewriter.shouldRename, target,
      Rewriter.rename, mergedName]
  | some a =>
    simp_all [reference, head, Rewriter.expr, Rewriter.exprs, Rewriter.idToken,
      Rewriter.shouldRename, target, Rewriter.rename, mergedName, String.append_assoc]

/-! ### The files that were discovered -/

section
variable {graph : Walk P} (hgraph : Discovered source entry graph)
include hgraph

theorem Discovered.plain {f : P} {a : Name} (h : graph.aliases f = some a) : ':' ∉ a.toList :=
  plain_of_importedAs (hgraph.named f a h)

variable {asName : Option Name}

theorem Discovered.importedAs {f : P} (h : graph.aliases f = asName) : ImportedAs source entry f asName := by
  cases asName with
  | none => exact hgraph.noted f h
  | some a => exact hgraph.named f a h

/-- Two declarations get one name exactly when they have one name and their files one alias. -/
theorem Discovered.same_name {f f' : P} {s : Stmt} {d : Name}
    (hs : s ∈ (source f').statements) (hd : d ∈ own source f) :
    (declared s).map (mergedName (graph.aliases f')) = some (mergedName (graph.aliases f) d) ↔
      declared s = some d ∧ graph.aliases f' = graph.aliases f := by
  constructor
  · intro h
    obtain ⟨e, he, hname⟩ := Option.map_eq_some_iff.mp h
    have hplain := (source f').plain_declared e (mem_own_iff.mpr ⟨s, hs, he⟩)
    obtain ⟨hall, rfl⟩ := mergedName_inj (fun a ha => hgraph.plain ha)
      (fun a ha => hgraph.plain ha) hplain ((source f).plain_declared d hd) hname
    exact ⟨he, hall⟩
  · rintro ⟨he, hall⟩
    rw [he, hall, Option.map_some]

/-- When all imports of a file agree, its alias is theirs. -/
theorem Consistent.alias_eq (h : Consistent source entry) {g f : P}
    (hg : Loaded source entry g) (hi : (f, asName) ∈ (source g).imports)
    (hf : own source f ≠ []) : graph.aliases f = asName := by
  cases hall : graph.aliases f with
  | some a =>
    obtain ⟨g', hg', hi'⟩ := hgraph.named f a hall
    exact (h.agreed g g' f asName (some a) hg hg' hi hi' hf).symm
  | none =>
    cases asName with
    | none => rfl
    | some a => exact absurd hi (hgraph.noted f hall g hg a)

variable [DecidableEq P]

theorem merge_once {f : P}
    (hf : Loaded source entry f) :
    (merge source graph).filter (fun m => m.1 = f) =
      (((source f).statements.map (placeStmt source graph.aliases f)).filter kept).map
        fun s => (f, s) := by
  rw [merge, List.filter_flatMap,
    flatMap_eq_of_unique hgraph.nodup ((hgraph.files_iff f).mpr hf), ← place_eq_map]
  · simp [List.filter_map, Function.comp_def]
  · intro g _ hg
    simp [List.filter_map, Function.comp_def, hg]

theorem Resolved.of_consistent (h : Consistent source entry) : Resolved source entry graph := by
  refine ⟨fun f hf => merge_once hgraph hf, ?_⟩
  intro g hg f asName hi d hd
  have hloaded : Loaded source entry f := hg.tail ⟨asName, hi⟩
  have halias := h.alias_eq hgraph hg hi (List.ne_nil_of_mem hd)
  have hhead : ∀ b, graph.aliases g = some b → head asName d ∉ own source g :=
    fun b hb => h.unshadowed g f asName b hg hi (hgraph.named g b hb) d hd
  rw [placeExpr_reference hhead, target_reference, merge_filter_declared,
    flatMap_eq_of_unique hgraph.nodup ((hgraph.files_iff f).mpr hloaded)]
  · refine congrArg (List.map _) (List.filter_congr fun s hs => ?_)
    simp [← halias, hgraph.same_name hs hd]
  · intro f' hf' hne
    refine List.map_eq_nil_iff.mpr (List.filter_eq_nil_iff.mpr fun s hs => ?_)
    rw [decide_eq_true_eq, ← halias, hgraph.same_name hs hd]
    rintro ⟨hs', hall⟩
    exact h.apart g f asName f' d hg hi ((hgraph.files_iff f').mp hf') hd
      (mem_own_iff.mpr ⟨s, hs, hs'⟩) hne (hgraph.importedAs (hall.trans halias))

omit hgraph in
theorem Resolved.target_eq (h : Resolved source entry graph) {g f : P}
    (hg : Loaded source entry g) (hi : (f, asName) ∈ (source g).imports) {d : Name}
    (hd : d ∈ own source f) :
    target (placeExpr source graph.aliases g (reference asName d)) =
      some (mergedName (graph.aliases f) d) := by
  obtain ⟨s, hs, hds⟩ := mem_own_iff.mp hd
  have hmem : (f, placeStmt source graph.aliases f s) ∈
      (merge source graph).filter (fun m => declared m.2 =
        target (placeExpr source graph.aliases g (reference asName d))) := by
    rw [h.names g hg f asName hi d hd]
    exact List.mem_map.mpr ⟨s, by simp [hs, hds], rfl⟩
  have hdeclared := of_decide_eq_true (List.mem_filter.mp hmem).2
  rw [← hdeclared, declared_placeStmt graph.aliases hs, hds, Option.map_some]

/-- No second file declares the name of a resolved reference. -/
theorem Resolved.origin_eq (h : Resolved source entry graph) {g f f' : P}
    (hg : Loaded source entry g) (hi : (f, asName) ∈ (source g).imports) {d : Name}
    (hd : d ∈ own source f) (hf' : Loaded source entry f') (hd' : d ∈ own source f')
    (hall : graph.aliases f' = graph.aliases f) : f' = f := by
  obtain ⟨s, hs, hds⟩ := mem_own_iff.mp hd'
  have hmem := mem_merge_filter hgraph hf' hs ((hgraph.same_name hs hd).mpr ⟨hds, hall⟩)
  rw [← h.target_eq hg hi hd, h.names g hg f asName hi d hd] at hmem
  obtain ⟨_, -, heq⟩ := List.mem_map.mp hmem
  exact (congrArg Prod.fst heq).symm

/-- A resolved reference was not captured and carries the alias of its file. -/
theorem Resolved.alias_eq (h : Resolved source entry graph) {rank : P → ℕ}
    (hrank : ∀ f, ∀ i ∈ (source f).imports, rank i.1 < rank f) {g f : P}
    (hg : Loaded source entry g) (hi : (f, asName) ∈ (source g).imports) {d : Name}
    (hd : d ∈ own source f) :
    graph.aliases f = asName ∧ ∀ b, graph.aliases g = some b → head asName d ∉ own source g := by
  have hplain := (source f).plain_declared d hd
  have htarget := h.target_eq hg hi hd
  by_cases hcaptured : ∃ b, graph.aliases g = some b ∧ head asName d ∈ own source g
  · exfalso
    obtain ⟨b, hb, hhead⟩ := hcaptured
    rw [target_placeExpr_captured hb hhead] at htarget
    have hname : b ++ "::" ++ mergedName asName d = mergedName (graph.aliases f) d :=
      Option.some.inj htarget
    cases hall : graph.aliases f with
    | none =>
      rw [hall] at hname
      have hqualified : b ++ "::" ++ mergedName asName d = d := hname
      exact hplain (hqualified ▸ qualified_not_plain _ _)
    | some c =>
      rw [hall] at hname
      obtain ⟨rfl, hd'⟩ := qualified_inj (hgraph.plain hb) (hgraph.plain hall) hname
      cases asName with
      | some a =>
        have hqualified : a ++ "::" ++ d = d := hd'
        exact hplain (hqualified ▸ qualified_not_plain _ _)
      | none =>
        -- The importer's own declaration has the name of the reference too.
        have hsame := h.origin_eq hgraph hg hi hd hg hhead (hb.trans hall.symm)
        have := hrank g _ hi
        rw [hsame] at this
        exact lt_irrefl _ this
  · push Not at hcaptured
    rw [placeExpr_reference hcaptured, target_reference] at htarget
    obtain ⟨hall, -⟩ := mergedName_inj ((source g).plain_alias _ hi)
      (fun a ha => hgraph.plain ha) hplain hplain (Option.some.inj htarget)
    exact ⟨hall.symm, hcaptured⟩

theorem Resolved.consistent (h : Resolved source entry graph) {rank : P → ℕ}
    (hrank : ∀ f, ∀ i ∈ (source f).imports, rank i.1 < rank f) : Consistent source entry := by
  refine ⟨?_, ?_, ?_⟩
  · intro g g' f asName asName' hg hg' hi hi' hf
    obtain ⟨d, hd⟩ := List.exists_mem_of_ne_nil _ hf
    have h₁ := (h.alias_eq hgraph hrank hg hi hd).1
    have h₂ := (h.alias_eq hgraph hrank hg' hi' hd).1
    exact h₁.symm.trans h₂
  · intro g f asName f' d hg hi hf' hd hd' hne himported
    have hall := (h.alias_eq hgraph hrank hg hi hd).1
    have hall' : graph.aliases f' = asName := by
      cases asName with
      | some a =>
        obtain ⟨g', hg', hi'⟩ := himported
        exact (h.alias_eq hgraph hrank hg' hi' hd').1
      | none =>
        cases hall' : graph.aliases f' with
        | none => rfl
        | some a =>
          obtain ⟨g', hg', hi'⟩ := hgraph.named f' a hall'
          exact absurd hi' (himported g' hg' a)
    exact hne (h.origin_eq hgraph hg hi hd hf' hd' (hall'.trans hall.symm))
  · intro g f asName a hg hi himported d hd
    obtain ⟨g', hg', hi'⟩ := himported
    cases hall : graph.aliases g with
    | none => exact absurd hi' (hgraph.noted g hall g' hg' a)
    | some b => exact (h.alias_eq hgraph hrank hg hi hd).2 b hall

end

/-- On every acyclic import graph `discover` returns, and the merged program resolves the
references of all importers exactly when their imports fit together. -/
theorem resolved_iff_consistent [DecidableEq P] (source : P → SourceFile P) (rank : P → ℕ)
    (hrank : ∀ f, ∀ i ∈ (source f).imports, rank i.1 < rank f) (entry : P) (fuel : ℕ)
    (hfuel : rank entry < fuel) :
    ∃ graph, discover source fuel entry = .ok graph ∧
      (Resolved source entry graph ↔ Consistent source entry) := by
  obtain ⟨graph, hok, hgraph⟩ := discover_ok hrank hfuel
  exact ⟨graph, hok, fun h => h.consistent hgraph hrank, Resolved.of_consistent hgraph⟩

end

/-- The entry file 0 imports file 1 bare, and file 2, which imports file 1 as `m`. -/
def bareAndAliased : ℕ → SourceFile ℕ
  | 0 => ⟨[(1, none), (2, none)], [], by simp, by simp [topLevelNames]⟩
  | 1 => ⟨[], [.function false "f" [] [] none []], by simp,
      by simp [topLevelNames, declared]⟩
  | 2 => ⟨[(1, some "m")], [], by simp, by simp [topLevelNames]⟩
  | _ => ⟨[], [], by simp, by simp [topLevelNames]⟩

def bareAndAliasedRank : ℕ → ℕ
  | 0 => 2
  | 2 => 1
  | _ => 0

theorem bareAndAliased_acyclic (f : ℕ) :
    ∀ i ∈ (bareAndAliased f).imports, bareAndAliasedRank i.1 < bareAndAliasedRank f := by
  match f with
  | 0 => simp [bareAndAliased, bareAndAliasedRank]
  | 1 => simp [bareAndAliased]
  | 2 => simp [bareAndAliased, bareAndAliasedRank]
  | _ + 3 => simp [bareAndAliased]

theorem resolved_iff_consistent_bareAndAliased :
    ∃ graph, discover bareAndAliased 3 0 = .ok graph ∧
      (Resolved bareAndAliased 0 graph ↔ Consistent bareAndAliased 0) :=
  resolved_iff_consistent bareAndAliased bareAndAliasedRank bareAndAliased_acyclic 0 3 (by decide)

/-- The bare reference of the entry file to `f` is lost: the merged program has `m::f` only. -/
theorem not_resolved_bareAndAliased :
    (∀ f, ∀ i ∈ (bareAndAliased f).imports, bareAndAliasedRank i.1 < bareAndAliasedRank f) ∧
      ∃ graph, discover bareAndAliased 3 0 = .ok graph ∧ ¬ Resolved bareAndAliased 0 graph := by
  refine ⟨bareAndAliased_acyclic, _, rfl, fun h => ?_⟩
  have himport : ((1 : ℕ), (none : Option Name)) ∈ (bareAndAliased 0).imports := by
    simp [bareAndAliased]
  have hdeclared : "f" ∈ own bareAndAliased 1 := by
    simp [own, topLevelNames, declared, bareAndAliased]
  have htarget := h.target_eq .refl himport hdeclared
  have hname : ("f" : Name) = "m" ++ "::" ++ "f" := Option.some.inj htarget
  exact ne_qualified "m" "f" hname

end Neutron.ModuleGraph
