import Neutron.GenericArguments
import Neutron.GenericsErrors
import Neutron.Supertraits

/-!
# Implementations are complete

An `impl` block is accepted when it has, or the traits give it by default, a method for every method of its trait
and of the traits that one inherits from. The class takes the methods in, and the rest of the pass leaves their
names as they are.
-/

namespace Neutron
namespace Fuelled
variable {σ α β : Type}

theorem bracket_result {enter : σ → σ} {leave : σ → σ → σ} {p : Fuelled σ α} {w w' : σ} {a : α}
    (h : ((bracket enter leave p).run w).result = some (a, w')) : ∃ w₁, (p.run (enter w)).result = some (a, w₁) := by
  simp only [bracket, get, modify, Bind.bind, Pure.pure] at h
  rcases hrun : p.run (enter w) with ⟨alarm, _ | ⟨b, w₁⟩⟩
  · rw [hrun] at h
    cases h
  · rw [hrun] at h
    cases h
    exact ⟨w₁, rfl⟩

/-- One result for each element, in the order of the list. -/
theorem each_result {f : α → Fuelled σ β} {l : List α} {bs : List β} {w w' : σ}
    (h : ((each f l).run w).result = some (bs, w')) :
    List.Forall₂ (fun a b => ∃ w₁ w₂, ((f a).run w₁).result = some (b, w₂)) l bs := by
  induction l generalizing bs w with
  | nil =>
    cases h
    exact .nil
  | cons first rest ih =>
    obtain ⟨b, w₁, hfirst, hrest⟩ := bind_result h
    obtain ⟨others, w₂, hothers, hdone⟩ := bind_result hrest
    cases hdone
    exact .cons ⟨w, w₁, hfirst⟩ (ih hothers)

theorem ofOption_result {o : Option α} {w w' : σ} {a : α} (h : ((ofOption o).run w).result = some (a, w')) :
    o = some a ∧ w' = w := by
  cases o with
  | none => cases h
  | some b =>
    cases h
    exact ⟨rfl, rfl⟩

end Fuelled

namespace Generics
open Syntax TypeNames Fuelled

/-- Among the methods is one for each method of the trait. -/
def Provides (d : Decls) (methods : List Stmt) (traitName : Name) : Prop :=
  ∀ declared ∈ (d.traits.lookup traitName).getD [], ∀ name, functionName declared = some name →
    ∃ member ∈ methods, functionName member = some name

/-- Every class has the methods of the traits it implements. -/
def Complete (r : Registered) : Prop :=
  ∀ entry ∈ r.decls.implementations, Provides r.decls ((r.methods.lookup entry.2).getD []) entry.1

/-- What is implemented stays implemented, over traits that stay as they are. -/
structure Extends (r r' : Registered) : Prop where
  traits : r'.decls.traits = r.decls.traits
  parents : r'.decls.traitParents = r.decls.traitParents
  implementations : r.decls.implementations ⊆ r'.decls.implementations

theorem Extends.trans {r r' r'' : Registered} (h : Extends r r') (h' : Extends r' r'') : Extends r r'' :=
  ⟨h'.traits.trans h.traits, h'.parents.trans h.parents, List.Subset.trans h.implementations h'.implementations⟩

/-! ### One implementation -/

theorem functionName_substituteStmtTypes {σ : Subst} {s : Stmt} {name : Name} (h : functionName s = some name) :
    functionName (substituteStmtTypes σ s) = some name := by
  unfold functionName at h
  split at h
  · exact h
  · cases h

/-- Where nothing is reported, the block has the method or its trait gives a default. -/
theorem requireMethod_provides {body : List Stmt} {σ : Subst} {ancestor name : Name} {declared : Stmt}
    (hname : functionName declared = some name) (hnone : (requireMethod body σ ancestor declared).2 = []) :
    ∃ member ∈ body ++ (requireMethod body σ ancestor declared).1, functionName member = some name := by
  unfold requireMethod at hnone ⊢
  simp only [hname] at hnone ⊢
  cases hfind : body.find? fun candidate => functionName candidate = some name with
  | some candidate =>
    exact ⟨candidate, List.mem_append_left _ (List.mem_of_find?_eq_some hfind),
      by simpa using List.find?_some hfind⟩
  | none =>
    rw [hfind] at hnone
    dsimp only at hnone ⊢
    split at hnone
    · rename_i hbody
      rw [if_pos hbody]
      exact ⟨_, List.mem_append_right _ (List.mem_singleton_self _), functionName_substituteStmtTypes hname⟩
    · cases hnone

theorem requireMethods_provides {d : Decls} {chain : List Name} {body : List Stmt} {σ : Subst}
    (hnone : (requireMethods d chain body σ).flatMap (·.2) = []) {traitName : Name} (ht : traitName ∈ chain) :
    Provides d (body.filter (fun member => (functionName member).isSome) ++
      (requireMethods d chain body σ).flatMap (·.1)) traitName := by
  intro declared hdeclared name hname
  have hmem : requireMethod body σ traitName declared ∈ requireMethods d chain body σ :=
    List.mem_flatMap.mpr ⟨traitName, ht, List.mem_map_of_mem hdeclared⟩
  obtain ⟨member, hmember, heq⟩ := requireMethod_provides hname (List.flatMap_eq_nil_iff.mp hnone _ hmem)
  refine ⟨member, ?_, heq⟩
  rcases List.mem_append.mp hmember with hmember | hmember
  · exact List.mem_append_left _ (List.mem_filter.mpr ⟨hmember, by rw [heq]; rfl⟩)
  · exact List.mem_append_right _ (List.mem_flatMap.mpr ⟨_, hmem, hmember⟩)

section
variable (equal : TypeAnnotation → TypeAnnotation → Bool) (n : ℕ)

variable {traitName typeName : Name} {w w' : Work}

theorem bindMember_decls {chain : List Name} {b b' : Bindings} {member : Stmt}
    (h : ((bindMember equal n traitName typeName chain b member).run w).result = some (b', w')) :
    b'.decls.traits = b.decls.traits ∧ b'.decls.traitParents = b.decls.traitParents ∧
      b'.decls.implementations = b.decls.implementations := by
  unfold bindMember at h
  split at h
  · split_ifs at h
    · cases h
      exact ⟨rfl, rfl, rfl⟩
    · cases h
      exact ⟨rfl, rfl, rfl⟩
    · cases h
      exact ⟨rfl, rfl, rfl⟩
    · obtain ⟨target, w₁, -, hdone⟩ := bind_result h
      cases hdone
      exact ⟨rfl, rfl, rfl⟩
  · cases h
    exact ⟨rfl, rfl, rfl⟩
  · cases h
    exact ⟨rfl, rfl, rfl⟩

theorem bindMembers_decls {chain : List Name} {members : List Stmt} {b b' : Bindings}
    (h : ((bindMembers equal n traitName typeName chain members b).run w).result = some (b', w')) :
    b'.decls.traits = b.decls.traits ∧ b'.decls.traitParents = b.decls.traitParents ∧
      b'.decls.implementations = b.decls.implementations := by
  induction members generalizing b w with
  | nil =>
    cases h
    exact ⟨rfl, rfl, rfl⟩
  | cons member rest ih =>
    obtain ⟨b₁, w₁, hfirst, hrest⟩ := bind_result h
    have hone := bindMember_decls equal n hfirst
    have hothers := ih hrest
    exact ⟨hothers.1.trans hone.1, hothers.2.1.trans hone.2.1, hothers.2.2.trans hone.2.2⟩

/-- A registration that leaves no error behind. -/
structure Registers (r r' : Registered) (traitName typeName : Name) : Prop where
  extension : Extends r r'
  complete : Complete r → Complete r'
  implemented : ∀ t, t = traitName ∨ Inherits r.decls traitName t → (t, typeName) ∈ r'.decls.implementations

theorem registerImpl_registers {r r' : Registered} {body : List Stmt}
    (h : ((registerImpl equal n r traitName typeName body).run w).result = some (r', w')) (hw : w'.errors = []) :
    Registers r r' traitName typeName := by
  obtain ⟨w₀, _, hget, h⟩ := bind_result h
  cases hget
  split at h
  · cases h
    simp at hw
  split at h
  · cases h
    simp at hw
  split at h
  · cases h
    simp at hw
  obtain ⟨ancestors, w₁, hchain, hmembers⟩ := bind_result h
  have hancestors := (ofOption_result hchain).1
  obtain ⟨b, w₂, hb, hmethods⟩ := bind_result hmembers
  obtain ⟨htraits, hparents, himplementations⟩ := bindMembers_decls equal n hb
  obtain ⟨_, w₃, hmodify, hdone⟩ := bind_result hmethods
  cases hmodify
  cases hdone
  simp only [List.append_eq_nil_iff] at hw
  have hspec := (traitAncestors_spec _ hancestors).2
  refine ⟨⟨htraits, hparents, ?_⟩, fun hr => ?_, fun t ht => ?_⟩
  · dsimp only
    rw [himplementations]
    exact List.subset_append_of_subset_right _ (List.subset_cons_self _ _)
  · rintro ⟨t, c⟩ hentry declared hdeclared name hname
    dsimp only at hentry hdeclared ⊢
    rw [himplementations] at hentry
    have hnew : t ∈ traitName :: ancestors → ∃ member ∈ body.filter (fun member => (functionName member).isSome) ++
        (requireMethods b.decls (traitName :: ancestors) body b.substitution).flatMap (·.1),
        functionName member = some name := fun ht => requireMethods_provides hw.2 ht declared hdeclared name hname
    have hold : (t, c) ∈ r.decls.implementations → ∃ member ∈ (r.methods.lookup c).getD [],
        functionName member = some name := by
      intro hmem
      have hsame : b.decls.traits = r.decls.traits := htraits
      rw [hsame] at hdeclared
      exact hr (t, c) hmem declared hdeclared name hname
    by_cases hc : c = typeName
    · subst hc
      rw [lookup_put, Option.getD_some]
      rcases List.mem_append.mp hentry with hentry | hentry
      · obtain ⟨t', ht', heq⟩ := List.mem_map.mp hentry
        obtain ⟨rfl, -⟩ := Prod.mk.inj heq
        obtain ⟨member, hmember, hm⟩ := hnew ht'
        exact ⟨member, List.mem_append_right _ hmember, hm⟩
      · rcases List.mem_cons.mp hentry with heq | hentry
        · obtain ⟨rfl, -⟩ := Prod.mk.inj heq
          obtain ⟨member, hmember, hm⟩ := hnew List.mem_cons_self
          exact ⟨member, List.mem_append_right _ hmember, hm⟩
        · obtain ⟨member, hmember, hm⟩ := hold hentry
          exact ⟨member, List.mem_append_left _ hmember, hm⟩
    · rw [lookup_put_of_ne hc]
      rcases List.mem_append.mp hentry with hentry | hentry
      · obtain ⟨t', -, heq⟩ := List.mem_map.mp hentry
        exact absurd (Prod.mk.inj heq).2.symm hc
      · rcases List.mem_cons.mp hentry with heq | hentry
        · exact absurd (Prod.mk.inj heq).2 hc
        · exact hold hentry
  · dsimp only
    refine List.mem_append_left _ (List.mem_map_of_mem (f := fun t => (t, typeName)) ?_)
    by_cases hne : t = traitName
    · exact hne ▸ List.mem_cons_self
    · exact List.mem_cons_of_mem _ ((hspec t).mpr ⟨hne, ht.resolve_left hne⟩)

/-! ### All implementations -/

theorem raises_bindMembers (traitName typeName : Name) (chain : List Name) (members : List Stmt) (b : Bindings) :
    Raises (bindMembers equal n traitName typeName chain members b) := by
  have hmember : ∀ b member, Raises (bindMember equal n traitName typeName chain b member) := by
    intro b member
    unfold bindMember
    split
    · repeat' first
        | exact (raises_error _).bind fun _ => .done _
        | exact ((lower_raise equal _ n).normalizeType _).bind fun _ => .done _
        | split
    · exact .done _
    · exact (raises_error _).bind fun _ => .done _
  induction members generalizing b with
  | nil => exact .done _
  | cons member rest ih => exact (hmember b member).bind ih

theorem raises_registerImpl (r : Registered) (traitName typeName : Name) (body : List Stmt) :
    Raises (registerImpl equal n r traitName typeName body) := by
  refine Rises.get.bind fun w => ?_
  repeat' first | exact (raises_error _).bind fun _ => .done _ | split
  refine Rises.bind (fun w a w' h => (ofOption_result h).2 ▸ le_rfl) fun ancestors => ?_
  refine (raises_bindMembers equal n traitName typeName _ body _).bind fun b => ?_
  refine Rises.bind (Rises.modify fun w => ?_) fun _ => .done _
  simp only [List.length_append]
  omega

theorem raises_registerImpls (statements : List Stmt) (r : Registered) :
    Raises (registerImpls equal n statements r) := by
  induction statements generalizing r with
  | nil => exact .done _
  | cons s rest ih =>
    unfold registerImpls
    split
    · cases ‹_ :: _ = _›
    · rename_i heq
      cases heq
      exact (raises_registerImpl equal n _ _ _ _).bind ih
    · rename_i heq
      cases heq
      exact ih _

theorem registerImpls_registers {statements : List Stmt} {r r' : Registered}
    (h : ((registerImpls equal n statements r).run w).result = some (r', w')) (hw : w'.errors = []) :
    Extends r r' ∧ (Complete r → Complete r') ∧ ∀ traitName typeName body,
      .implDecl traitName typeName body ∈ statements → ∀ t, t = traitName ∨ Inherits r.decls traitName t →
        (t, typeName) ∈ r'.decls.implementations := by
  induction statements generalizing r w with
  | nil =>
    cases h
    exact ⟨⟨rfl, rfl, List.Subset.refl _⟩, fun hr => hr, fun _ _ _ hmem => absurd hmem List.not_mem_nil⟩
  | cons s rest ih =>
    unfold registerImpls at h
    split at h
    · cases ‹_ :: _ = _›
    · rename_i traitName typeName body rest' heq
      cases heq
      obtain ⟨r₁, w₁, hfirst, hrest⟩ := bind_result h
      have hbefore := raises_registerImpls equal n rest r₁ w₁ r' w' hrest
      have hw₁ : w₁.errors = [] := List.length_eq_zero_iff.mp (by simpa [hw] using hbefore)
      have hone := registerImpl_registers equal n hfirst hw₁
      obtain ⟨hextends, hcomplete, himplemented⟩ := ih hrest
      refine ⟨hone.extension.trans hextends, hcomplete ∘ hone.complete, ?_⟩
      intro traitName' typeName' body' hmem t ht
      rcases List.mem_cons.mp hmem with heq | hmem
      · cases heq
        exact hextends.implementations (hone.implemented t ht)
      · refine himplemented traitName' typeName' body' hmem t (ht.imp_right fun hinherits => ?_)
        unfold Inherits supertraits at hinherits ⊢
        rwa [hone.extension.parents]
    · rename_i hother heq
      cases heq
      obtain ⟨hextends, hcomplete, himplemented⟩ := ih h
      refine ⟨hextends, hcomplete, fun traitName typeName body hmem => ?_⟩
      rcases List.mem_cons.mp hmem with heq | hmem
      · exact absurd heq.symm (hother traitName typeName body)
      · exact himplemented traitName typeName body hmem

/-! ### The output -/

theorem functionName_transformStmt {d : Decls} {s s' : Stmt} {name : Name} (hname : functionName s = some name)
    (h : (((lower equal d n).transformStmt s).run w).result = some (s', w')) :
    functionName s' = some name := by
  cases n with
  | zero => cases h
  | succ n =>
    unfold functionName at hname
    split at hname
    · obtain ⟨params, w₁, -, h₁⟩ := bind_result h
      obtain ⟨body, w₂, -, h₂⟩ := bind_result h₁
      obtain ⟨returnType, w₃, -, h₃⟩ := bind_result h₂
      cases h₃
      exact hname
    · cases hname

theorem implementations_collect (statements : List Stmt) : (collect statements).decls.implementations = [] := by
  have hempty : Collected.empty.decls.implementations = [] := rfl
  refine List.foldlRecOn statements collectStmt (motive := fun c => c.decls.implementations = []) hempty
    fun c hc s _ => ?_
  unfold collectStmt
  split
  all_goals
    first
    | exact hc
    | (split <;> exact hc)

/-- What a prepared program was made from: the implementations, the statements and the tables. -/
structure Prepares (program : Program) (p : Prepared) (r : Registered) : Prop where
  extension : Extends ⟨(collect program.statements).decls, []⟩ r
  complete : Complete r
  implemented : ∀ traitName typeName body, .implDecl traitName typeName body ∈ program.statements →
    ∀ t, t = traitName ∨ Inherits (collect program.statements).decls traitName t →
      (t, typeName) ∈ r.decls.implementations
  statements : ∀ s ∈ program.statements, ∃ out w w', ((prepareStmt equal n r s).run w).result = some (out, w') ∧
    ∀ s' ∈ out, s' ∈ p.program.statements
  tables : ∀ table ∈ p.traitObjectTables, ∃ entry ∈ r.decls.traits, ∃ w w',
    ((traitObjectTable n r.decls entry).run w).result = some (some table, w')

theorem prepareProgram_prepares {program : Program} {p : Prepared} {w : Work}
    (h : (prepareProgram equal n program).result = some (.ok p, w)) : ∃ r, Prepares equal n program p r := by
  obtain ⟨_, w₁, -, h₁⟩ := bind_result h
  obtain ⟨_, _, hget, h₂⟩ := bind_result h₁
  cases hget
  split at h₂
  · cases h₂
  obtain ⟨_, w₂, hmodify, h₃⟩ := bind_result h₂
  obtain ⟨r, w₃, himpls, h₄⟩ := bind_result h₃
  obtain ⟨_, _, hget, h₅⟩ := bind_result h₄
  cases hget
  split at h₅
  · cases h₅
  rename_i herrors
  obtain ⟨output, w₄, houtput, h₆⟩ := bind_result h₅
  obtain ⟨tables, w₅, htables, h₇⟩ := bind_result h₆
  obtain ⟨_, _, hget, h₈⟩ := bind_result h₇
  cases hget
  split at h₈
  · cases h₈
  cases h₈
  have hnone : w₃.errors = [] := by simpa using herrors
  obtain ⟨hextends, hcomplete, himplemented⟩ := registerImpls_registers equal n himpls hnone
  have hempty : Complete ⟨(collect program.statements).decls, []⟩ := fun entry hentry =>
    absurd (implementations_collect program.statements ▸ hentry) List.not_mem_nil
  refine ⟨r, hextends, hcomplete hempty, himplemented, fun s hs => ?_, fun table htable => ?_⟩
  · obtain ⟨i, hi, rfl⟩ := List.getElem_of_mem hs
    obtain ⟨hlength, hall⟩ := List.forall₂_iff_get.mp (each_result houtput)
    obtain ⟨w₆, w₇, hrun⟩ := hall i hi (hlength ▸ hi)
    refine ⟨_, w₆, w₇, hrun, fun s' hs' => ?_⟩
    have hmem : some s' ∈ output := hs' ▸ List.get_mem output ⟨i, hlength ▸ hi⟩
    exact List.mem_append_left _ (List.mem_append_right _ (List.reduceOption_mem_iff.mpr hmem))
  · obtain ⟨i, hi, heq⟩ := List.getElem_of_mem (List.reduceOption_mem_iff.mp htable)
    obtain ⟨hlength, hall⟩ := List.forall₂_iff_get.mp (each_result htables)
    obtain ⟨w₆, w₇, hrun⟩ := hall i (hlength ▸ hi) hi
    have hout : tables.get ⟨i, hi⟩ = some table := heq
    rw [hout] at hrun
    exact ⟨_, List.get_mem _ _, w₆, w₇, hrun⟩

/-- A class takes in the methods registered for it. -/
theorem Prepares.provides {program : Program} {p : Prepared} {r : Registered} (h : Prepares equal n program p r)
    {typeName : Name} {members : List Stmt} {parent : Option Name}
    (hclass : .classDecl typeName [] parent members ∈ program.statements) :
    ∃ methods, .classDecl typeName [] parent methods ∈ p.program.statements ∧
      ∀ t, (t, typeName) ∈ r.decls.implementations → Provides (collect program.statements).decls methods t := by
  obtain ⟨out, w, w', hrun, hout⟩ := h.statements _ hclass
  obtain ⟨methods, w₁, hmethods, hdone⟩ := bind_result hrun
  cases hdone
  refine ⟨methods, hout _ rfl, fun t ht declared hdeclared name hname => ?_⟩
  have hsame : r.decls.traits = (collect program.statements).decls.traits := h.extension.traits
  obtain ⟨member, hmember, hm⟩ := h.complete (t, typeName) ht declared (hsame ▸ hdeclared) name hname
  obtain ⟨w₂, heach⟩ := bracket_result hmethods
  obtain ⟨i, hi, heq⟩ := List.getElem_of_mem (List.mem_append_right members hmember)
  obtain ⟨hlength, hall⟩ := List.forall₂_iff_get.mp (each_result heach)
  obtain ⟨w₃, w₄, htransform⟩ := hall i hi (hlength ▸ hi)
  exact ⟨_, List.get_mem methods ⟨i, hlength ▸ hi⟩,
    functionName_transformStmt equal n (by rw [List.get_eq_getElem, heq]; exact hm) htransform⟩

/-- In a prepared program a class has a method for every method of every trait it implements, and of every trait
one of these inherits from. -/
theorem prepareProgram_complete {program : Program} {p : Prepared} {w : Work}
    (h : (prepareProgram equal n program).result = some (.ok p, w)) {traitName typeName : Name}
    {body members : List Stmt} {parent : Option Name} (himpl : .implDecl traitName typeName body ∈ program.statements)
    (hclass : .classDecl typeName [] parent members ∈ program.statements) :
    ∃ methods, .classDecl typeName [] parent methods ∈ p.program.statements ∧
      ∀ t, t = traitName ∨ Inherits (collect program.statements).decls traitName t →
        Provides (collect program.statements).decls methods t := by
  obtain ⟨r, hr⟩ := prepareProgram_prepares equal n h
  obtain ⟨methods, hmethods, hprovides⟩ := hr.provides equal n hclass
  exact ⟨methods, hmethods, fun t ht => hprovides t (hr.implemented traitName typeName body himpl t ht)⟩

/-- A class with the method of a trait that the one it implements inherits from. -/
def shownProgram : Program :=
  ⟨[.traitDecl "Show" [] [] [.function false "show" [] [] none []], .traitDecl "Shape" ["Show"] [] [],
    .classDecl "Point" [] none [], .implDecl "Shape" "Point" [.function false "show" [] [] none []]]⟩

theorem prepareProgram_complete_shown :
    ∃ p w, (prepareProgram (fun _ _ => true) 9 shownProgram).result = some (.ok p, w) ∧
      ∃ methods, .classDecl "Point" [] none methods ∈ p.program.statements ∧
        ∀ t, t = "Shape" ∨ Inherits (collect shownProgram.statements).decls "Shape" t →
          Provides (collect shownProgram.statements).decls methods t :=
  ⟨_, _, rfl, prepareProgram_complete (fun _ _ => true) 9 rfl (.tail _ (.tail _ (.tail _ (.head _))))
    (.tail _ (.tail _ (.head _)))⟩

/-! ### The tables of trait objects -/

theorem slots_spec (seen : List Name) (methods : List Stmt) : ((slots seen methods).map (·.name)).Nodup ∧
    ∀ slot ∈ slots seen methods, slot.name ∉ seen ∧ ∃ declared ∈ methods, functionName declared = some slot.name := by
  induction seen, methods using slots.induct with
  | case1 => exact ⟨List.nodup_nil, fun _ h => absurd h List.not_mem_nil⟩
  | case2 seen name generics params returnType body rest hseen ih =>
    rw [slots, if_pos hseen]
    refine ⟨ih.1, fun slot hslot => ?_⟩
    obtain ⟨hnew, declared, hdeclared, hname⟩ := ih.2 slot hslot
    exact ⟨hnew, declared, List.mem_cons_of_mem _ hdeclared, hname⟩
  | case3 seen name generics params returnType body rest hseen ih =>
    rw [slots, if_neg hseen]
    refine ⟨List.nodup_cons.mpr ⟨?_, ih.1⟩, List.forall_mem_cons.mpr ⟨⟨hseen, _, List.mem_cons_self, rfl⟩, ?_⟩⟩
    · intro hmem
      obtain ⟨slot, hslot, hname⟩ := List.mem_map.mp hmem
      exact (ih.2 slot hslot).1 (hname ▸ List.mem_cons_self)
    · intro slot hslot
      obtain ⟨hnew, declared, hdeclared, hname⟩ := ih.2 slot hslot
      exact ⟨fun h => hnew (List.mem_cons_of_mem _ h), declared, List.mem_cons_of_mem _ hdeclared, hname⟩
  | case4 seen s rest hother ih =>
    rw [slots]
    · refine ⟨ih.1, fun slot hslot => ?_⟩
      obtain ⟨hnew, declared, hdeclared, hname⟩ := ih.2 slot hslot
      exact ⟨hnew, declared, List.mem_cons_of_mem _ hdeclared, hname⟩
    · exact hother

theorem keyed_traits (statements : List Stmt) : Keyed (collect statements).decls.traits := by
  have hempty : Keyed Collected.empty.decls.traits := List.nodup_nil
  refine List.foldlRecOn statements collectStmt (motive := fun c => Keyed c.decls.traits) hempty fun c hc s _ => ?_
  unfold collectStmt
  split
  · exact hc.put _ _
  all_goals
    first
    | exact hc
    | (split <;> exact hc)

/-- A trait object of a prepared program finds a method for each slot of its table in every class that implements
the trait, and no two slots have one name. -/
theorem prepareProgram_fills {program : Program} {p : Prepared} {w : Work}
    (h : (prepareProgram equal n program).result = some (.ok p, w)) {traitName typeName : Name}
    {body members : List Stmt} {parent : Option Name} {table : List TraitMethodInfo}
    (htable : (traitName, table) ∈ p.traitObjectTables)
    (himpl : .implDecl traitName typeName body ∈ program.statements)
    (hclass : .classDecl typeName [] parent members ∈ program.statements) :
    (table.map (·.name)).Nodup ∧ ∃ methods, .classDecl typeName [] parent methods ∈ p.program.statements ∧
      ∀ slot ∈ table, ∃ member ∈ methods, functionName member = some slot.name := by
  obtain ⟨r, hr⟩ := prepareProgram_prepares equal n h
  obtain ⟨methods, hmethods, hprovides⟩ := hr.provides equal n hclass
  obtain ⟨entry, hentry, w₁, w₂, hrun⟩ := hr.tables _ htable
  unfold traitObjectTable at hrun
  split at hrun
  · cases hrun
  obtain ⟨ancestors, w₃, hancestors, hdone⟩ := bind_result hrun
  cases hdone
  have hspec := (traitAncestors_spec _ (ofOption_result hancestors).1).2
  have hslots := slots_spec [] ((ancestors.flatMap fun t => (r.decls.traits.lookup t).getD []) ++ entry.2)
  refine ⟨hslots.1, methods, hmethods, fun slot hslot => ?_⟩
  obtain ⟨-, declared, hdeclared, hname⟩ := hslots.2 slot hslot
  have htraits : r.decls.traits = (collect program.statements).decls.traits := hr.extension.traits
  have hparents : r.decls.traitParents = (collect program.statements).decls.traitParents := hr.extension.parents
  have himplements := hr.implemented entry.1 typeName body himpl
  rcases List.mem_append.mp hdeclared with hdeclared | hdeclared
  · obtain ⟨t, ht, hdeclared⟩ := List.mem_flatMap.mp hdeclared
    have hinherits := ((hspec t).mp ht).2
    unfold Inherits supertraits at hinherits himplements
    rw [hparents] at hinherits
    exact hprovides t (himplements t (.inr hinherits)) declared (htraits ▸ hdeclared) slot.name hname
  · refine hprovides entry.1 (himplements entry.1 (.inl rfl)) declared ?_ slot.name hname
    rw [(keyed_traits program.statements).lookup (htraits ▸ hentry), Option.getD_some]
    exact hdeclared

theorem prepareProgram_fills_shown :
    ∃ p w table, (prepareProgram (fun _ _ => true) 9 shownProgram).result = some (.ok p, w) ∧
      ("Shape", table) ∈ p.traitObjectTables ∧ (table.map (·.name)).Nodup ∧
        ∃ methods, .classDecl "Point" [] none methods ∈ p.program.statements ∧
          ∀ slot ∈ table, ∃ member ∈ methods, functionName member = some slot.name :=
  ⟨_, _, _, rfl, .head _, prepareProgram_fills (fun _ _ => true) 9
    (show (prepareProgram (fun _ _ => true) 9 shownProgram).result = _ from rfl) (.head _)
    (.tail _ (.tail _ (.tail _ (.head _)))) (.tail _ (.tail _ (.head _)))⟩

end

end Generics
end Neutron
