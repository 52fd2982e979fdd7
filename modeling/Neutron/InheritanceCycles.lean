import Mathlib.Data.List.AList
import Mathlib.Data.Finset.Basic
import Mathlib.Data.Finset.Card
import Neutron.FunctionalGraph
import Neutron.SourceTree

/-!
# Inheritance cycles

`check_inheritance_cycles` of the type checker: every class with a parent starts a walk up the
`extends` chain, and a walk that comes back to its own class is reported with the chain it went.
-/

namespace Neutron.Source

/-- `TypeError`. -/
structure TypeError where
  message : String
  span : Span
  code : Option String
  help : Option String

namespace Inheritance

open FunctionalGraph

/-- One entry of the `parents` map; a later class of the same name replaces an earlier one. -/
def addParent (parents : AList (fun _ : String => Token)) : Stmt → AList (fun _ : String => Token)
  | .class name _ (some parent) _ => parents.insert name.lexeme parent
  | _ => parents

/-- `parents`. -/
def parents (program : List Stmt) : AList (fun _ : String => Token) := program.foldl addParent ∅

/-- The loop up from `start`: the chain so far and the class it has come to when it stops. -/
def climb (parents : AList (fun _ : String => Token)) (start : String) (chain : List String)
    (current : String) : List String × String :=
  if current = start then (chain, current)
  else
    match _hnext : parents.lookup current with
    | none => (chain, current)
    | some next =>
      if _hseen : current ∈ chain then (chain, current)
      else climb parents start (chain ++ [current]) next.lexeme
termination_by (parents.keys.toFinset \ chain.toFinset).card
decreasing_by
  have hkey : current ∈ parents.keys := by
    rw [← AList.mem_keys, ← AList.lookup_isSome, _hnext]
    rfl
  apply Finset.card_lt_card
  rw [Finset.ssubset_iff_of_subset (by intro a; simp; tauto)]
  exact ⟨current, by simp [hkey, _hseen], by simp⟩

def cycleError (start : String) (parent : Token) (chain : List String) : TypeError where
  code := none
  help := none
  message := "class `" ++ start ++ "` cannot inherit from itself (cycle: "
    ++ " -> ".intercalate chain ++ ")"
  span := parent.span

/-- What the loop over the statements changes: the errors and the classes in a reported chain. -/
structure Reports where
  errors : List TypeError
  reported : List String

/-- The body of the loop over the statements. -/
def checkClass (parents : AList (fun _ : String => Token)) (reports : Reports) : Stmt → Reports
  | .class name _ (some parent) _ =>
    let start := name.lexeme
    if start ∈ reports.reported then reports
    else
      let (chain, current) := climb parents start [start] parent.lexeme
      if current ≠ start then reports
      else
        let chain := chain ++ [start]
        { errors := reports.errors ++ [cycleError start parent chain]
          reported := reports.reported ++ chain }
  | _ => reports

/-- `check_inheritance_cycles`. -/
def checkInheritanceCycles (errors : List TypeError) (program : List Stmt) : List TypeError :=
  (program.foldl (checkClass (parents program)) { errors, reported := [] }).errors

/-- The class a statement declares. -/
def className : Stmt → Option String
  | .class name _ _ _ => some name.lexeme
  | _ => none

/-- A class statement of the program extends the named class. -/
def Extends (program : List Stmt) (child parent : String) : Prop :=
  ∃ name generics token body, Stmt.class name generics (some token) body ∈ program
    ∧ name.lexeme = child ∧ token.lexeme = parent

/-- The text names the classes one after the other, in this order. -/
inductive Named : List String → String → Prop
  | one (name : String) : Named [name] name
  | cons {names : List String} {text : String} (name : String) (h : Named names text) :
    Named (name :: names) (name ++ " -> " ++ text)

/-- The error stands at the parent of the chain's first class, and its message names the classes of the chain. -/
structure ReportOf (program : List Stmt) (chain : List String) (error : TypeError) : Prop where
  stands : ∃ name generics token body, Stmt.class name generics (some token) body ∈ program
    ∧ chain.head? = some name.lexeme ∧ error.span = token.span
  names : ∃ first text, chain.head? = some first ∧ Named chain text
    ∧ error.message = "class `" ++ first ++ "` cannot inherit from itself (cycle: " ++ text ++ ")"

theorem named_intercalate (name : String) (names : List String) :
    Named (name :: names) (" -> ".intercalate (name :: names)) := by
  induction names generalizing name with
  | nil =>
    rw [String.intercalate_singleton]
    exact .one name
  | cons next names ih =>
    rw [String.intercalate_cons_cons]
    exact .cons name (ih next)

variable {program : List Stmt}

/-- The report of a chain at the class it starts from. -/
theorem reportOf_cycleError {name : Token} {generics : List GenericParam} {token : Token}
    {body : List Stmt} (hstmt : Stmt.class name generics (some token) body ∈ program) {chain : List String}
    (hhead : chain.head? = some name.lexeme) : ReportOf program chain (cycleError name.lexeme token chain) where
  stands := ⟨name, generics, token, body, hstmt, hhead, rfl⟩
  names := by
    obtain ⟨names, rfl⟩ := List.head?_eq_some_iff.mp hhead
    exact ⟨_, _, hhead, named_intercalate name.lexeme names, rfl⟩

theorem eq_of_className (hdistinct : (program.filterMap className).Nodup)
    {first second : Stmt} {name : String} (hfirst : first ∈ program) (hsecond : second ∈ program)
    (hname : className first = some name) (hname' : className second = some name) :
    first = second := by
  induction program with
  | nil => exact absurd hfirst List.not_mem_nil
  | cons stmt rest ih =>
    cases hstmt : className stmt with
    | none =>
      rw [List.filterMap_cons_none hstmt] at hdistinct
      rcases List.mem_cons.mp hfirst with rfl | hfirst
      · exact absurd (hstmt.symm.trans hname) nofun
      · rcases List.mem_cons.mp hsecond with rfl | hsecond
        · exact absurd (hstmt.symm.trans hname') nofun
        · exact ih hdistinct hfirst hsecond
    | some declared =>
      rw [List.filterMap_cons_some hstmt, List.nodup_cons] at hdistinct
      have hother : ∀ s ∈ rest, className s ≠ some declared := fun s hs heq =>
        hdistinct.1 (List.mem_filterMap.mpr ⟨s, hs, heq⟩)
      rcases List.mem_cons.mp hfirst with heq | hrest
      · rcases List.mem_cons.mp hsecond with heq' | hrest
        · rw [heq, heq']
        · rw [heq, hstmt] at hname
          exact absurd (hname'.trans hname.symm) (hother second hrest)
      · rcases List.mem_cons.mp hsecond with heq | hrest'
        · rw [heq, hstmt] at hname'
          exact absurd (hname.trans hname'.symm) (hother first hrest)
        · exact ih hdistinct.2 hrest hrest'

theorem extends_unique (hdistinct : (program.filterMap className).Nodup) :
    Relator.RightUnique (Extends program) := by
  intro child first second hfirst hsecond
  obtain ⟨name, generics, token, body, hmem, hname, rfl⟩ := hfirst
  obtain ⟨name', generics', token', body', hmem', hname', rfl⟩ := hsecond
  have heq := eq_of_className hdistinct hmem hmem' (congrArg some hname) (congrArg some hname')
  cases heq
  rfl

variable {child : String}

theorem lookup_addParents (stmts : List Stmt) (table : AList (fun _ : String => Token))
    {token : Token} (h : (stmts.foldl addParent table).lookup child = some token) :
    table.lookup child = some token ∨ ∃ name generics body,
      Stmt.class name generics (some token) body ∈ stmts ∧ name.lexeme = child := by
  induction stmts generalizing table with
  | nil => exact .inl h
  | cons stmt rest ih =>
    rcases ih (addParent table stmt) h with h | ⟨name, generics, body, hmem, hname⟩
    · unfold addParent at h
      split at h
      · rename_i name generics parent body _
        by_cases hchild : child = name.lexeme
        · subst hchild
          rw [AList.lookup_insert, Option.some.injEq] at h
          subst h
          exact .inr ⟨name, generics, body, List.mem_cons_self, rfl⟩
        · rw [AList.lookup_insert_ne hchild] at h
          exact .inl h
      · exact .inl h
    · exact .inr ⟨name, generics, body, List.mem_cons_of_mem stmt hmem, hname⟩

theorem lookup_parents {token : Token}
    (h : (parents program).lookup child = some token) : Extends program child token.lexeme := by
  rcases lookup_addParents program ∅ h with h | ⟨name, generics, body, hmem, hname⟩
  · simp at h
  · exact ⟨name, generics, token, body, hmem, hname, rfl⟩

theorem addParents_isSome (stmts : List Stmt) (table : AList (fun _ : String => Token))
    (h : (table.lookup child).isSome = true ∨ ∃ parent, Extends stmts child parent) :
    ((stmts.foldl addParent table).lookup child).isSome = true := by
  induction stmts generalizing table with
  | nil =>
    rcases h with h | ⟨_, _, _, _, _, hmem, _⟩
    · exact h
    · exact absurd hmem List.not_mem_nil
  | cons stmt rest ih =>
    apply ih
    have hkept : (table.lookup child).isSome = true →
        ((addParent table stmt).lookup child).isSome = true := by
      intro hsome
      unfold addParent
      split
      · rename_i name _ parent _
        by_cases hchild : child = name.lexeme
        · rw [hchild, AList.lookup_insert]
          rfl
        · rw [AList.lookup_insert_ne hchild]
          exact hsome
      · exact hsome
    rcases h with h | ⟨parent, name, generics, token, body, hmem, hname, hparent⟩
    · exact .inl (hkept h)
    · rcases List.mem_cons.mp hmem with rfl | hmem
      · left
        rw [addParent, hname, AList.lookup_insert]
        rfl
      · exact .inr ⟨parent, name, generics, token, body, hmem, hname, hparent⟩

theorem not_extends_of_lookup_none
    (h : (parents program).lookup child = none) (parent : String) : ¬ Extends program child parent := by
  intro hext
  have hsome := addParents_isSome program ∅ (.inr ⟨parent, hext⟩)
  rw [parents] at h
  rw [h] at hsome
  exact absurd hsome nofun

/-- The loop from `start` comes back to it exactly when `start` is on a cycle, and then the chain is
that cycle. -/
theorem climb_spec (hdistinct : (program.filterMap className).Nodup)
    {table : AList (fun _ : String => Token)} (htable : table = parents program) {start current : String}
    {chain walk : List String} (hwalk : chain = start :: walk)
    (hchain : (start :: (walk ++ [current])).IsChain (Extends program))
    (hnodup : (start :: walk).Nodup) :
    ((climb table start chain current).2 = start
        ∧ Cycle (Extends program) ((climb table start chain current).1 ++ [start])
        ∧ ((climb table start chain current).1 ++ [start]).head? = some start)
      ∨ ((climb table start chain current).2 ≠ start ∧ ¬ OnCycle (Extends program) start) := by
  have hdet := extends_unique hdistinct
  fun_induction climb table start chain current generalizing walk with
  | case1 chain =>
    subst hwalk
    exact .inl ⟨rfl, ⟨start, walk, rfl, hnodup, hchain⟩, rfl⟩
  | case2 chain current hne hnone =>
    subst htable
    exact .inr ⟨hne, not_onCycle_of_end hdet hchain (not_extends_of_lookup_none hnone)⟩
  | case3 chain current hne next hnext hseen =>
    subst hwalk
    have hlater : current ∈ walk := by
      rcases List.mem_cons.mp hseen with heq | hlater
      · exact absurd heq hne
      · exact hlater
    exact .inr ⟨hne, not_onCycle_of_lasso hdet hchain hnodup hlater⟩
  | case4 chain current hne next hnext hseen ih =>
    subst htable
    subst hwalk
    apply ih rfl
    · change (start :: ((walk ++ [current]) ++ [next.lexeme])).IsChain (Extends program)
      rw [List.append_assoc, List.singleton_append, List.isChain_cons_append_cons_cons]
      exact ⟨hchain, lookup_parents hnext, List.isChain_singleton _⟩
    · change ((start :: walk) ++ [current]).Nodup
      rw [List.nodup_append]
      refine ⟨hnodup, List.nodup_singleton current, ?_⟩
      rintro a ha b hb rfl
      rw [List.mem_singleton] at hb
      subst hb
      exact hseen ha

/-- What holds between two statements: the chains reported so far are disjoint cycles, and every
class gone through that is on a cycle is in one of them. -/
structure Settled (program : List Stmt) (errors : List TypeError) (seen : List Stmt)
    (chains : List (List String)) (reports : Reports) : Prop where
  added : ∃ found, reports.errors = errors ++ found ∧ List.Forall₂ (ReportOf program) chains found
  cycles : ∀ chain ∈ chains, Cycle (Extends program) chain
  disjoint : chains.Pairwise List.Disjoint
  reported : ∀ name, name ∈ reports.reported ↔ ∃ chain ∈ chains, name ∈ chain
  covered : ∀ name generics token body, Stmt.class name generics (some token) body ∈ seen →
    OnCycle (Extends program) name.lexeme → name.lexeme ∈ reports.reported

variable {chains : List (List String)} {errors : List TypeError} {reports : Reports}

theorem Settled.skip {seen : List Stmt} (h : Settled program errors seen chains reports)
    {stmt : Stmt} (hskip : ∀ name generics token body, stmt = .class name generics (some token) body →
      OnCycle (Extends program) name.lexeme → name.lexeme ∈ reports.reported) :
    Settled program errors (seen ++ [stmt]) chains reports where
  added := h.added
  cycles := h.cycles
  disjoint := h.disjoint
  reported := h.reported
  covered := by
    intro name generics token body hmem hcycle
    rcases List.mem_append.mp hmem with hmem | hmem
    · exact h.covered name generics token body hmem hcycle
    · exact hskip name generics token body (List.mem_singleton.mp hmem).symm hcycle

/-- A new cycle is disjoint from the reported ones, since a cycle holds all classes reached from it. -/
theorem Settled.report (hdistinct : (program.filterMap className).Nodup) {seen : List Stmt}
    (h : Settled program errors seen chains reports) {name : Token} {generics : List GenericParam}
    {parent : Token} {body : List Stmt} (hstmt : Stmt.class name generics (some parent) body ∈ program)
    {chain : List String} (hcycle : Cycle (Extends program) chain) (hhead : chain.head? = some name.lexeme)
    (hnew : name.lexeme ∉ reports.reported) :
    Settled program errors (seen ++ [.class name generics (some parent) body]) (chains ++ [chain])
      { errors := reports.errors ++ [cycleError name.lexeme parent chain]
        reported := reports.reported ++ chain } where
  added := by
    obtain ⟨found, herrors, hfound⟩ := h.added
    refine ⟨found ++ [cycleError name.lexeme parent chain], ?_, ?_⟩
    · rw [herrors, List.append_assoc]
    · apply List.rel_append hfound
      exact .cons (reportOf_cycleError hstmt hhead) .nil
  cycles := by
    intro other hother
    rcases List.mem_append.mp hother with hother | hother
    · exact h.cycles other hother
    · rw [List.mem_singleton.mp hother]
      exact hcycle
  disjoint := by
    rw [List.pairwise_append]
    refine ⟨h.disjoint, List.pairwise_singleton _ _, ?_⟩
    intro other hother last hlast
    rw [List.mem_singleton.mp hlast]
    have hnot : name.lexeme ∉ other := fun hmem => hnew ((h.reported _).mpr ⟨other, hother, hmem⟩)
    exact (h.cycles other hother).disjoint (extends_unique hdistinct) hcycle (List.mem_of_mem_head? hhead) hnot
  reported := by
    intro member
    rw [List.mem_append, h.reported member]
    constructor
    · rintro (⟨other, hother, hmember⟩ | hmember)
      · exact ⟨other, List.mem_append_left _ hother, hmember⟩
      · exact ⟨chain, List.mem_append_right _ (List.mem_singleton_self chain), hmember⟩
    · rintro ⟨other, hother, hmember⟩
      rcases List.mem_append.mp hother with hother | hother
      · exact .inl ⟨other, hother, hmember⟩
      · rw [List.mem_singleton.mp hother] at hmember
        exact .inr hmember
  covered := by
    intro name' generics' token' body' hmem hon
    rcases List.mem_append.mp hmem with hmem | hmem
    · exact List.mem_append_left _ (h.covered name' generics' token' body' hmem hon)
    · cases List.mem_singleton.mp hmem
      exact List.mem_append_right _ (List.mem_of_mem_head? hhead)

theorem Settled.checkClass (hdistinct : (program.filterMap className).Nodup) {seen : List Stmt}
    (h : Settled program errors seen chains reports) {stmt : Stmt} (hstmt : stmt ∈ program) :
    ∃ chains, Settled program errors (seen ++ [stmt]) chains
      (Inheritance.checkClass (parents program) reports stmt) := by
  unfold Inheritance.checkClass
  split
  · rename_i name generics parent body
    by_cases hreported : name.lexeme ∈ reports.reported
    · simp only [hreported, if_true]
      refine ⟨chains, h.skip ?_⟩
      intro name' generics' token' body' heq hcycle
      cases heq
      exact hreported
    simp only [hreported, if_false]
    have hext : Extends program name.lexeme parent.lexeme :=
      ⟨name, generics, parent, body, hstmt, rfl, rfl⟩
    have hclimb := climb_spec hdistinct rfl rfl
      (List.isChain_cons_cons.mpr ⟨hext, List.isChain_singleton _⟩) (List.nodup_singleton name.lexeme)
    rcases hclimb with ⟨hback, hcycle, hhead⟩ | ⟨hne, hnot⟩
    · simp only [hback, ne_eq, not_true, if_false]
      exact ⟨_, h.report hdistinct hstmt hcycle hhead hreported⟩
    · simp only [hne, ne_eq, not_false_iff, if_true]
      refine ⟨chains, h.skip ?_⟩
      intro name' generics' token' body' heq hcycle
      cases heq
      exact absurd hcycle hnot
  · rename_i hother
    refine ⟨chains, h.skip ?_⟩
    intro name generics token body heq
    exact absurd heq (hother name generics token body)

theorem Settled.run (hdistinct : (program.filterMap className).Nodup) {seen rest : List Stmt}
    (h : Settled program errors seen chains reports) (hrest : ∀ stmt ∈ rest, stmt ∈ program) :
    ∃ chains, Settled program errors (seen ++ rest) chains
      (rest.foldl (Inheritance.checkClass (parents program)) reports) := by
  induction rest generalizing seen chains reports with
  | nil =>
    rw [List.append_nil]
    exact ⟨chains, h⟩
  | cons stmt rest ih =>
    obtain ⟨chains', h'⟩ := h.checkClass hdistinct (hrest stmt List.mem_cons_self)
    have hnext := ih h' fun s hs => hrest s (List.mem_cons_of_mem stmt hs)
    rw [List.append_assoc, List.singleton_append] at hnext
    exact hnext

theorem countP_of_disjoint (h : chains.Pairwise List.Disjoint) {name : String}
    (hmem : ∃ chain ∈ chains, name ∈ chain) : chains.countP (name ∈ ·) = 1 := by
  induction h with
  | nil =>
    obtain ⟨chain, hchain, -⟩ := hmem
    exact absurd hchain List.not_mem_nil
  | @cons chain chains hdisjoint _ ih =>
    by_cases hname : name ∈ chain
    · have hrest : chains.countP (name ∈ ·) = 0 := by
        rw [List.countP_eq_zero]
        intro other hother
        rw [decide_eq_true_eq]
        exact hdisjoint other hother hname
      rw [List.countP_cons, hrest, if_pos (decide_eq_true hname)]
    · rw [List.countP_cons, if_neg (by rw [decide_eq_true_eq]; exact hname)]
      apply ih
      obtain ⟨other, hother, hmember⟩ := hmem
      rcases List.mem_cons.mp hother with rfl | hother
      · exact absurd hmember hname
      · exact ⟨other, hother, hmember⟩

/-- The check adds one error for each cycle of the `extends` relation, which names the cycle's
classes in order from one of them back to it, and no other errors. -/
theorem checkInheritanceCycles_exact {program : List Stmt} (hdistinct : (program.filterMap className).Nodup)
    (errors : List TypeError) :
    ∃ chains found, checkInheritanceCycles errors program = errors ++ found
      ∧ List.Forall₂ (ReportOf program) chains found
      ∧ (∀ chain ∈ chains, Cycle (Extends program) chain)
      ∧ (∀ name, OnCycle (Extends program) name → chains.countP (name ∈ ·) = 1)
      ∧ ∀ name, ¬ OnCycle (Extends program) name → chains.countP (name ∈ ·) = 0 := by
  have hstart : Settled program errors [] [] { errors, reported := [] } :=
    { added := ⟨[], (List.append_nil errors).symm, .nil⟩
      cycles := fun chain hchain => absurd hchain List.not_mem_nil
      disjoint := .nil
      reported := by simp
      covered := fun name generics token body hmem => absurd hmem List.not_mem_nil }
  have hall : ∀ stmt ∈ program, stmt ∈ program := fun stmt hstmt => hstmt
  obtain ⟨chains, hend⟩ := hstart.run hdistinct hall
  obtain ⟨found, herrors, hfound⟩ := hend.added
  refine ⟨chains, found, herrors, hfound, hend.cycles, ?_, ?_⟩
  · intro name hon
    apply countP_of_disjoint hend.disjoint
    obtain ⟨_, ⟨token, generics, parent, body, hmem, rfl, _⟩, _⟩ := Relation.TransGen.head'_iff.mp hon
    exact (hend.reported _).mp (hend.covered token generics parent body hmem hon)
  · intro name hnot
    rw [List.countP_eq_zero]
    intro chain hchain
    rw [decide_eq_true_eq]
    exact fun hname => hnot ((hend.cycles chain hchain).onCycle hname)

/-- `class A extends B`, `class B extends A` and `class C extends A`. -/
def tailedProgram : List Stmt :=
  let token (name : String) : Token := ⟨.identifier name, Span.dummy⟩
  [.class (token "A") [] (some (token "B")) [], .class (token "B") [] (some (token "A")) [],
    .class (token "C") [] (some (token "A")) []]

theorem checkInheritanceCycles_tailed :
    ∃ chains found, checkInheritanceCycles [] tailedProgram = [] ++ found
      ∧ List.Forall₂ (ReportOf tailedProgram) chains found
      ∧ (∀ chain ∈ chains, Cycle (Extends tailedProgram) chain)
      ∧ (∀ name, OnCycle (Extends tailedProgram) name → chains.countP (name ∈ ·) = 1)
      ∧ ∀ name, ¬ OnCycle (Extends tailedProgram) name → chains.countP (name ∈ ·) = 0 :=
  checkInheritanceCycles_exact (by decide) []

end Inheritance

end Neutron.Source
