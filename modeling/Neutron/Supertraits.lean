import Neutron.PrepareProgram
import Neutron.Worklist

/-!
# The supertraits of a trait

`trait_ancestors` and the loop of `validate_supertraits` are two breadth-first searches over the supertraits a
program declares, which may form cycles and may name traits that are not declared.
-/

namespace Neutron.Generics
open Relation Syntax TypeNames Fuelled

variable (d : Decls)

def supertraits (name : Name) : List Name := (d.traitParents.lookup name).getD []

/-- A trait with its supertraits, theirs and so on. -/
def Inherits (name ancestor : Name) : Prop := TransGen (Worklist.Step (supertraits d)) name ancestor

/-- Supertraits named in the program, counted once for each trait. -/
def supertraitCount : ℕ := ∑ name ∈ (d.traitParents.map Prod.fst).toFinset, (supertraits d name).length

theorem supertraits_eq_nil {name : Name} (h : name ∉ (d.traitParents.map Prod.fst).toFinset) :
    supertraits d name = [] := by
  have hnone : d.traitParents.lookup name = none := by
    rw [List.lookup_eq_none_iff]
    intro entry hentry
    simp only [List.mem_toFinset, List.mem_map, not_exists, not_and] at h
    simpa using fun heq => h entry hentry heq.symm
  rw [supertraits, hnone, Option.getD_none]

theorem length_supertraits_le (name : Name) : (supertraits d name).length ≤ supertraitCount d := by
  by_cases h : name ∈ (d.traitParents.map Prod.fst).toFinset
  · exact Finset.single_le_sum (f := fun name => (supertraits d name).length) (fun _ _ => Nat.zero_le _) h
  · rw [supertraits_eq_nil d h]
    exact Nat.zero_le _

theorem search_supertraits_isSome (goal : Name → Bool) {n : ℕ} (hn : 2 * supertraitCount d < n) (name : Name)
    (seen : List Name) : (Worklist.search (supertraits d) goal n (supertraits d name) seen).isSome := by
  refine Worklist.search_isSome (d.traitParents.map Prod.fst).toFinset
    (fun a ha => supertraits_eq_nil d ha) ?_
  have hqueue := length_supertraits_le d name
  have hrest : ∑ a ∈ (d.traitParents.map Prod.fst).toFinset \ seen.toFinset, (supertraits d a).length ≤
      supertraitCount d := Finset.sum_le_sum_of_subset Finset.sdiff_subset
  omega

/-! ### Both loops are searches -/

theorem ancestorsLoop_eq (name : Name) (n : ℕ) (queue ancestors : List Name) :
    ancestorsLoop d name n queue ancestors =
      (Worklist.search (supertraits d) (fun _ => false) n queue (name :: ancestors)).map fun out => out.2.tail := by
  induction n generalizing queue ancestors with
  | zero => rfl
  | succ n ih =>
    cases queue with
    | nil => rfl
    | cons current queue =>
      rw [ancestorsLoop, Worklist.search, if_neg Bool.false_ne_true]
      by_cases h : current = name ∨ current ∈ ancestors
      · rw [if_pos h, if_pos (List.mem_cons.mpr h), ih]
      · rw [if_neg h, if_neg (fun hmem => h (List.mem_cons.mp hmem)), ih]
        rfl

theorem reachesItself_eq (name : Name) (n : ℕ) (queue visited : List Name) :
    reachesItself d name n queue visited =
      (Worklist.search (supertraits d) (fun t => t = name) n queue visited).map Prod.fst := by
  induction n generalizing queue visited with
  | zero => rfl
  | succ n ih =>
    cases queue with
    | nil => rfl
    | cons current queue =>
      rw [reachesItself, Worklist.search]
      simp only [decide_eq_true_eq]
      split_ifs
      · rfl
      · exact ih _ _
      · exact ih _ _

theorem inherits_iff {name ancestor : Name} : Inherits d name ancestor ↔
    ∃ parent ∈ supertraits d name, ReflTransGen (Worklist.Step (supertraits d)) parent ancestor :=
  TransGen.head'_iff

/-- The ancestors are the traits inherited from, each once and without the trait itself. -/
theorem traitAncestors_spec {name : Name} {n : ℕ} {ancestors : List Name}
    (h : traitAncestors d n name = some ancestors) :
    ancestors.Nodup ∧ ∀ t, t ∈ ancestors ↔ t ≠ name ∧ Inherits d name t := by
  rw [traitAncestors, ancestorsLoop_eq] at h
  obtain ⟨⟨found, out⟩, hsearch, rfl⟩ := Option.map_eq_some_iff.mp h
  cases found with
  | true =>
    obtain ⟨_, _, _, _, hgoal⟩ := Worklist.search_found hsearch
    exact absurd hgoal Bool.false_ne_true
  | false =>
    have hfrontier : Worklist.Frontier (supertraits d) (supertraits d name) [name] := by
      intro a ha b hb
      obtain rfl := List.mem_singleton.mp ha
      exact .inr hb
    have hout := Worklist.search_exhausted hfrontier hsearch
    obtain ⟨rest, hrest⟩ := hout.taken
    obtain rfl : name :: rest = out := hrest
    have hnodup := List.nodup_cons.mp (hout.nodup (List.nodup_singleton name))
    refine ⟨hnodup.2, fun t => ?_⟩
    change t ∈ rest ↔ _
    rw [inherits_iff]
    constructor
    · intro ht
      rcases hout.reached t (List.mem_cons_of_mem name ht) with hname | ⟨-, hreach⟩
      · exact absurd (List.mem_singleton.mp hname ▸ ht) hnodup.1
      · exact ⟨fun heq => hnodup.1 (heq ▸ ht), hreach⟩
    · rintro ⟨hne, parent, hparent, hreach⟩
      exact (List.mem_cons.mp (hout.complete hparent hreach)).resolve_left hne

theorem reachesItself_spec {name : Name} {n : ℕ} {found : Bool}
    (h : reachesItself d name n (supertraits d name) [] = some found) : found = true ↔ Inherits d name name := by
  rw [reachesItself_eq] at h
  obtain ⟨⟨found, out⟩, hsearch, rfl⟩ := Option.map_eq_some_iff.mp h
  rw [inherits_iff]
  cases found with
  | true =>
    obtain ⟨parent, hparent, t, hreach, hgoal⟩ := Worklist.search_found hsearch
    obtain rfl := of_decide_eq_true hgoal
    exact iff_of_true rfl ⟨parent, hparent, hreach⟩
  | false =>
    have hout := Worklist.search_exhausted (fun a ha => absurd ha List.not_mem_nil) hsearch
    refine iff_of_false Bool.false_ne_true ?_
    rintro ⟨parent, hparent, hreach⟩
    rcases hout.reached name (hout.complete hparent hreach) with hseen | ⟨hgoal, -⟩
    · exact List.not_mem_nil hseen
    · exact of_decide_eq_false hgoal rfl

/-! ### The errors of a program -/

/-- For a trait of any program, also of one on a cycle, the search ends with the traits it inherits from. -/
theorem traitAncestors_exact (name : Name) : ∃ bound, ∀ n, bound < n → ∃ ancestors,
    traitAncestors d n name = some ancestors ∧ ancestors.Nodup ∧
      ∀ t, t ∈ ancestors ↔ t ≠ name ∧ Inherits d name t := by
  refine ⟨2 * supertraitCount d, fun n hn => ?_⟩
  obtain ⟨out, hsearch⟩ := Option.isSome_iff_exists.mp
    (search_supertraits_isSome d (fun _ => false) hn name [name])
  have h : traitAncestors d n name = some out.2.tail := by
    rw [traitAncestors, ancestorsLoop_eq]
    exact congrArg (Option.map fun out => out.2.tail) hsearch
  exact ⟨out.2.tail, h, traitAncestors_spec d h⟩

/-- A map that `put` built has each key once. -/
def Keyed {α β : Type} (map : Map α β) : Prop := (map.map Prod.fst).Nodup

theorem Keyed.put {α β : Type} [DecidableEq α] {map : Map α β} (h : Keyed map) (key : α) (value : β) :
    Keyed (put key value map) := by
  refine List.nodup_cons.mpr ⟨?_, h.sublist (List.filter_sublist.map _)⟩
  simp

theorem Keyed.lookup {α β : Type} [DecidableEq α] {map : Map α β} (h : Keyed map) {entry : α × β}
    (hentry : entry ∈ map) : map.lookup entry.1 = some entry.2 := by
  induction map with
  | nil => exact absurd hentry List.not_mem_nil
  | cons first rest ih =>
    obtain ⟨hfirst, hrest⟩ := List.nodup_cons.mp h
    rcases List.mem_cons.mp hentry with rfl | hentry
    · exact List.lookup_cons_self
    · have hne : (entry.1 == first.1) = false :=
        beq_eq_false_iff_ne.mpr fun heq => hfirst (heq ▸ List.mem_map_of_mem hentry)
      rw [List.lookup_cons, hne]
      exact ih hrest hentry

theorem keyed_traitParents (statements : List Stmt) : Keyed (collect statements).decls.traitParents := by
  have hempty : Keyed Collected.empty.decls.traitParents := List.nodup_nil
  refine List.foldlRecOn statements collectStmt (motive := fun c => Keyed c.decls.traitParents) hempty
    fun c hc s _ => ?_
  unfold collectStmt
  split
  · exact hc.put _ _
  all_goals
    first
    | exact hc
    | (split <;> exact hc)

open Classical in
/-- What is wrong with the supertraits of a trait. -/
noncomputable def supertraitErrors (entry : Name × List Name) : List TypeError :=
  ((entry.2.filter fun parent => (d.traits.lookup parent).isNone).map fun parent =>
      .unknownSupertrait entry.1 parent) ++
    if Inherits d entry.1 entry.1 then [.inheritsFromItself entry.1] else []

theorem run_validateSupertrait {entry : Name × List Name} (hentry : entry.2 = supertraits d entry.1) {n : ℕ}
    (hn : 2 * supertraitCount d < n) (w : Work) : ((validateSupertrait d n entry).run w).result =
      some ((), { w with errors := w.errors ++ supertraitErrors d entry }) := by
  obtain ⟨found, hfound⟩ : ∃ found, reachesItself d entry.1 n entry.2 [] = some found := by
    rw [hentry, reachesItself_eq]
    exact Option.isSome_iff_exists.mp (by rw [Option.isSome_map]; exact search_supertraits_isSome d _ hn _ _)
  have hspec : found = true ↔ Inherits d entry.1 entry.1 := reachesItself_spec d (hentry ▸ hfound)
  cases found with
  | true =>
    simp only [validateSupertrait, hfound, supertraitErrors, if_pos (hspec.mp rfl)]
    simp [Bind.bind, Pure.pure, Fuelled.modify, ofOption, error]
  | false =>
    have hno : ¬Inherits d entry.1 entry.1 := fun h => Bool.false_ne_true (hspec.mpr h)
    simp only [validateSupertrait, hfound, supertraitErrors, if_neg hno]
    simp [Bind.bind, Pure.pure, Fuelled.modify, ofOption]

theorem run_validateSupertraits {entries : List (Name × List Name)}
    (hentries : ∀ entry ∈ entries, entry.2 = supertraits d entry.1) {n : ℕ} (hn : 2 * supertraitCount d < n)
    (w : Work) : ((each (validateSupertrait d n) entries).run w).result =
      some (entries.map fun _ => (), { w with errors := w.errors ++ entries.flatMap (supertraitErrors d) }) := by
  induction entries generalizing w with
  | nil =>
    rw [List.flatMap_nil, List.append_nil]
    rfl
  | cons entry rest ih =>
    have hfirst := run_validateSupertrait d (hentries entry List.mem_cons_self) hn w
    have hrest := ih (fun entry hentry => hentries entry (List.mem_cons_of_mem _ hentry))
      { w with errors := w.errors ++ supertraitErrors d entry }
    rw [List.flatMap_cons, ← List.append_assoc]
    simp only [each, Bind.bind]
    rcases hrun : (validateSupertrait d n entry).run w with ⟨alarm, result⟩
    obtain rfl : result = _ := (congrArg Run.result hrun).symm.trans hfirst
    dsimp only
    rcases hrun' : (each (validateSupertrait d n) rest).run
      { w with errors := w.errors ++ supertraitErrors d entry } with ⟨alarm', result'⟩
    obtain rfl : result' = _ := (congrArg Run.result hrun').symm.trans hrest
    rfl

/-- The validation of a program ends, and reports every supertrait that is not declared and every trait that
inherits from itself, over however many others, once and in the order of the traits. -/
theorem validateSupertraits_exact (statements : List Stmt) :
    let d := (collect statements).decls
    ∃ bound, ∀ n, bound < n → ∀ w, ((each (validateSupertrait d n) d.traitParents).run w).result =
      some (d.traitParents.map fun _ => (),
        { w with errors := w.errors ++ d.traitParents.flatMap (supertraitErrors d) }) := by
  intro d
  refine ⟨2 * supertraitCount d, fun n hn w => run_validateSupertraits d (fun entry hentry => ?_) hn w⟩
  rw [supertraits, (keyed_traitParents statements).lookup hentry, Option.getD_some]

end Neutron.Generics
