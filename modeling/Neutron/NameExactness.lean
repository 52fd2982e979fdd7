import Mathlib.Algebra.Order.Group.Multiset
import Neutron.NameScoping

/-!
# What the resolver reports

The errors of the resolver and the faults of the scoping rule differ by the faults it does not
report: those in the parts it does not visit, and a second declaration of a result constructor at
the top level. This is so where every declaration stands in a scope that the resolver opens.
-/

namespace Neutron.Names
open Source Resolver

def ResolveError.report (e : ResolveError) : Report := (e.message, e.span)

/-- The scopes of the language before a program: the builtins, and outside them the result
constructors. -/
def languageScopes : List (List String) :=
  [["say", "alloc", "wait_any", "wait_all", "_", "async", "chan"], ["Ok", "Err"]]

def resultConstructor (name : String) : Bool := name == "Ok" || name == "Err"

namespace Item

mutual
/-- The names an item declares in the scope where it stands. -/
def declared : Item → List String
  | .need _ _ _ => []
  | .declare name _ => [name]
  | .bring name _ => [name]
  | .scope _ => []
  | .asyncBody _ => []
  | .unvisited items => listDeclared items
  | .bodyFirst body condition => listDeclared body ++ listDeclared condition
def listDeclared : List Item → List String
  | [] => []
  | item :: rest => declared item ++ listDeclared rest
end

mutual
/-- No `async` body and no `do` loop declares a name directly, nor does a part that is not
visited declare one for what follows it. -/
def Placed : Item → Prop
  | .need _ _ _ => True
  | .declare _ _ => True
  | .bring _ _ => True
  | .scope items => AllPlaced items
  | .asyncBody items => listDeclared items = [] ∧ AllPlaced items
  | .unvisited items => listDeclared items = []
  | .bodyFirst body condition =>
    (listDeclared body = [] ∧ AllPlaced body) ∧ listDeclared condition = [] ∧ AllPlaced condition
def AllPlaced : List Item → Prop
  | [] => True
  | item :: rest => Placed item ∧ AllPlaced rest
end

mutual
/-- The faults in the parts that are not visited, and the result constructors declared again at
the top level. -/
def unreported (scopes : List (List String)) : Item → List Report
  | .need _ _ _ => []
  | .declare name span =>
    if scopes.length = 2 ∧ resultConstructor name then faults scopes (.declare name span) else []
  | .bring _ _ => []
  | .scope items => listUnreported ([] :: scopes) items
  | .asyncBody items => listUnreported ([] :: scopes) items
  | .unvisited items => listFaults scopes items
  | .bodyFirst body condition =>
    listUnreported scopes body ++ listUnreported (listAfter body scopes) condition
def listUnreported (scopes : List (List String)) : List Item → List Report
  | [] => []
  | item :: rest => unreported scopes item ++ listUnreported (scopesAfter item scopes) rest
end

end Item

/-! ### Scopes -/

/-- The resolver's scopes hold the names in scope. -/
structure Sees (lex res : List (List String)) : Prop where
  visible : ∀ x, visible x lex = visible x res
  two_le : 2 ≤ lex.length
  one_le : 1 ≤ res.length
  constructors : ∀ x, resultConstructor x → Names.visible x lex = true

/-- The innermost scopes agree too, but for the result constructors at the top level. -/
structure Agrees (lex res : List (List String)) : Prop where
  sees : Sees lex res
  top_level : lex.length = 2 ↔ res.length = 1
  innermost : ∀ x, ¬ (lex.length = 2 ∧ resultConstructor x) →
    (lex.headD []).contains x = (res.headD []).contains x

section
variable {lex res : List (List String)} {x : String}

theorem visible_declareIn (h : 1 ≤ lex.length) (y : String) :
    visible y (declareIn x lex) = (decide (y = x) || visible y lex) := by
  cases lex with
  | nil => simp at h
  | cons scope rest => simp [declareIn, visible, Bool.or_assoc]

@[simp] theorem length_declareIn : (declareIn x lex).length = lex.length := by
  cases lex <;> rfl

theorem contains_headD_declareIn (h : 1 ≤ lex.length) (y : String) :
    ((declareIn x lex).headD []).contains y = (decide (y = x) || (lex.headD []).contains y) := by
  cases lex with
  | nil => simp at h
  | cons scope rest => simp [declareIn]

theorem visible_of_contains_headD (h : (lex.headD []).contains x = true) :
    visible x lex = true := by
  cases lex with
  | nil => simp at h
  | cons scope rest =>
    simp only [List.headD_cons] at h
    simp only [visible, List.any_cons, h, Bool.true_or]

theorem visible_cons_nil : visible x ([] :: lex) = visible x lex := by simp [visible]

theorem Sees.push (h : Sees lex res) : Sees ([] :: lex) res where
  visible y := by rw [visible_cons_nil, h.visible y]
  two_le := by have := h.two_le; simp; omega
  one_le := h.one_le
  constructors y hy := by rw [visible_cons_nil, h.constructors y hy]

theorem Sees.enter (h : Sees lex res) : Agrees ([] :: lex) ([] :: res) where
  sees :=
    { visible := fun y => by rw [visible_cons_nil, visible_cons_nil, h.visible y]
      two_le := by have := h.two_le; simp; omega
      one_le := by simp
      constructors := fun y hy => by rw [visible_cons_nil, h.constructors y hy] }
  top_level := by
    have hlex := h.two_le
    have hres := h.one_le
    simp only [List.length_cons]
    omega
  innermost _ _ := rfl

/-- Declaring a name the resolver does not have yet. -/
theorem Agrees.declare (h : Agrees lex res) : Agrees (declareIn x lex) (declareIn x res) where
  sees :=
    { visible := fun y => by
        rw [visible_declareIn (by have := h.sees.two_le; omega), visible_declareIn h.sees.one_le,
          h.sees.visible y]
      two_le := by simpa using h.sees.two_le
      one_le := by simpa using h.sees.one_le
      constructors := fun y hy => by
        rw [visible_declareIn (by have := h.sees.two_le; omega), h.sees.constructors y hy,
          Bool.or_true] }
  top_level := by simpa using h.top_level
  innermost y hy := by
    rw [contains_headD_declareIn (by have := h.sees.two_le; omega),
      contains_headD_declareIn h.sees.one_le, h.innermost y (by simpa using hy)]

/-- Declaring a name the resolver's innermost scope has. -/
theorem Agrees.repeat (h : Agrees lex res) (hx : (res.headD []).contains x = true) :
    Agrees (declareIn x lex) res where
  sees :=
    { visible := fun y => by
        rw [visible_declareIn (by have := h.sees.two_le; omega), h.sees.visible y]
        by_cases hy : y = x
        · subst hy
          rw [visible_of_contains_headD hx, Bool.or_true]
        · simp [hy]
      two_le := by simpa using h.sees.two_le
      one_le := h.sees.one_le
      constructors := fun y hy => by
        rw [visible_declareIn (by have := h.sees.two_le; omega), h.sees.constructors y hy,
          Bool.or_true] }
  top_level := by simpa using h.top_level
  innermost y hy := by
    rw [contains_headD_declareIn (by have := h.sees.two_le; omega),
      h.innermost y (by simpa using hy)]
    by_cases hxy : y = x
    · subst hxy
      rw [hx, Bool.or_true]
    · simp [hxy]

end

/-! ### One visit -/

/-- Visiting finds the faults, but for the unreported ones, and the scopes go side by side. -/
structure Visited (faults unreported : List Report) (lex lex' : List (List String))
    (r r' : Resolver) : Prop where
  errors : ∃ found, r'.errors = r.errors ++ found ∧
    ((found.map ResolveError.report ++ unreported : List Report) : Multiset Report) = faults
  agrees : Agrees lex r.scopes → Agrees lex' r'.scopes

namespace Visited
variable {f f' u u' : List Report} {lex lex' lex'' : List (List String)} {r r' r'' : Resolver}

theorem refl : Visited [] [] lex lex r r where
  errors := ⟨[], by simp, rfl⟩
  agrees h := h

theorem trans (h : Visited f u lex lex' r r') (h' : Visited f' u' lex' lex'' r' r'') :
    Visited (f ++ f') (u ++ u') lex lex'' r r'' where
  errors := by
    obtain ⟨found, herrors, hfound⟩ := h.errors
    obtain ⟨found', herrors', hfound'⟩ := h'.errors
    refine ⟨found ++ found', by rw [herrors', herrors, List.append_assoc], ?_⟩
    simp only [List.map_append, ← Multiset.coe_add] at hfound hfound' ⊢
    rw [← hfound, ← hfound', add_add_add_comm]
  agrees ha := h'.agrees (h.agrees ha)

theorem perm (h : Visited f u lex lex' r r') (hf : f.Perm f') (hu : u.Perm u') :
    Visited f' u' lex lex' r r' where
  errors := by
    obtain ⟨found, herrors, hfound⟩ := h.errors
    refine ⟨found, herrors, ?_⟩
    rw [← Multiset.coe_eq_coe.mpr hf, ← hfound]
    exact Multiset.coe_eq_coe.mpr (hu.symm.append_left _)
  agrees := h.agrees

/-- Where the resolver's scopes stay as they are, so do those of the language. -/
theorem of_scopes_eq (h : Visited f u lex' lex'' r r') (hs : r'.scopes = r.scopes) :
    Visited f u lex lex r r' where
  errors := h.errors
  agrees ha := by rwa [hs]

end Visited

section
variable {lex : List (List String)} {r : Resolver} (name : String) (span : Span)

theorem visited_need (message : String → String) (h : Sees lex r.scopes) :
    Visited (Item.faults lex (.need message name span)) [] lex lex r
      (r.need message name span) := by
  simp only [Item.faults, Resolver.need, h.visible name]
  split
  · exact .refl
  · exact ⟨⟨[_], rfl, rfl⟩, fun ha => ha⟩

theorem define_of_fresh (h : ¬ (r.scopes.headD []).contains name = true) :
    r.define name span = { r with scopes := declareIn name r.scopes } := by
  obtain ⟨scopes, errors⟩ := r
  cases scopes with
  | nil => rfl
  | cons scope rest => exact if_neg h

theorem define_of_contains (h : (r.scopes.headD []).contains name = true) :
    r.define name span =
      if r.shadowsBuiltin name then r else r.push ⟨alreadyDefined name, span, none⟩ := by
  obtain ⟨scopes, errors⟩ := r
  cases scopes with
  | nil => simp at h
  | cons scope rest => exact if_pos h

theorem tail_declareIn (scopes : List (List String)) :
    (declareIn name scopes).tail = scopes.tail := by
  cases scopes <;> rfl

theorem Agrees.shadowsBuiltin_iff (h : Agrees lex r.scopes) :
    r.shadowsBuiltin name = true ↔ lex.length = 2 ∧ resultConstructor name = true := by
  rw [h.top_level]
  simp [shadowsBuiltin, resultConstructor, and_comm]

theorem visited_define (h : Agrees lex r.scopes) :
    Visited (Item.faults lex (.declare name span)) (Item.unreported lex (.declare name span)) lex
      (declareIn name lex) r (r.define name span) := by
  by_cases hshadows : r.shadowsBuiltin name = true
  · -- A result constructor at the top level: the resolver never reports it.
    have hunreported : Item.unreported lex (.declare name span) =
        Item.faults lex (.declare name span) :=
      if_pos ((h.shadowsBuiltin_iff name).mp hshadows)
    rw [hunreported]
    by_cases hmem : (r.scopes.headD []).contains name = true
    · rw [define_of_contains name span hmem, if_pos hshadows]
      exact ⟨⟨[], by simp, rfl⟩, fun _ => h.repeat hmem⟩
    · rw [define_of_fresh name span hmem]
      exact ⟨⟨[], by simp, rfl⟩, fun _ => h.declare⟩
  · have hother := fun hc => hshadows ((h.shadowsBuiltin_iff name).mpr hc)
    have hunreported : Item.unreported lex (.declare name span) = [] := if_neg hother
    rw [hunreported]
    simp only [Item.faults, h.innermost name hother]
    by_cases hmem : (r.scopes.headD []).contains name = true
    · rw [define_of_contains name span hmem, if_neg hshadows, if_pos hmem]
      exact ⟨⟨[_], rfl, rfl⟩, fun _ => h.repeat hmem⟩
    · rw [define_of_fresh name span hmem, if_neg hmem]
      exact ⟨⟨[], by simp, rfl⟩, fun _ => h.declare⟩

theorem visited_bring (h : Agrees lex r.scopes) :
    Visited [] [] lex (Item.scopesAfter (.bring name span) lex) r (r.bring name span) := by
  simp only [Item.scopesAfter, Resolver.bring, h.sees.visible name]
  by_cases hvisible : visible name r.scopes = true
  · rw [if_pos hvisible, if_pos hvisible]
    exact .refl
  · rw [if_neg hvisible, if_neg hvisible,
      define_of_fresh name span fun hmem => hvisible (visible_of_contains_headD hmem)]
    exact ⟨⟨[], by simp, rfl⟩, fun ha => ha.declare⟩

end

/-! ### Items that declare nothing -/

namespace Item

mutual
theorem scopesAfter_of_declared_eq_nil : ∀ (item : Item) (scopes : List (List String)),
    declared item = [] → scopesAfter item scopes = scopes
  | .need _ _ _, _, _ => rfl
  | .scope _, _, _ => rfl
  | .asyncBody _, _, _ => rfl
  | .declare _ _, _, h => by simp [declared] at h
  | .bring _ _, _, h => by simp [declared] at h
  | .unvisited items, scopes, h => listAfter_of_declared_eq_nil items scopes h
  | .bodyFirst body condition, scopes, h => by
    simp only [declared, List.append_eq_nil_iff] at h
    simp only [scopesAfter, listAfter_of_declared_eq_nil body scopes h.1,
      listAfter_of_declared_eq_nil condition scopes h.2]
theorem listAfter_of_declared_eq_nil : ∀ (items : List Item) (scopes : List (List String)),
    listDeclared items = [] → listAfter items scopes = scopes
  | [], _, _ => rfl
  | item :: rest, scopes, h => by
    simp only [listDeclared, List.append_eq_nil_iff] at h
    simp only [listAfter, scopesAfter_of_declared_eq_nil item scopes h.1,
      listAfter_of_declared_eq_nil rest scopes h.2]
end

theorem tail_define (name : String) (span : Span) (r : Resolver) :
    (r.define name span).scopes.tail = r.scopes.tail := by
  by_cases hmem : (r.scopes.headD []).contains name = true
  · rw [define_of_contains name span hmem]
    split <;> rfl
  · rw [define_of_fresh name span hmem]
    exact tail_declareIn name r.scopes

mutual
/-- Only the innermost scope changes. -/
theorem tail_visit : ∀ (item : Item) (r : Resolver),
    (visit item r).scopes.tail = r.scopes.tail
  | .need message name span, r => by
    simp only [visit, Resolver.need]
    split <;> rfl
  | .declare name span, r => tail_define name span r
  | .bring name span, r => by
    simp only [visit, Resolver.bring]
    split
    · rfl
    · exact tail_define name span r
  | .scope items, r => congrArg List.tail (tail_visitAll items { r with scopes := [] :: r.scopes })
  | .asyncBody items, r => tail_visitAll items r
  | .unvisited _, _ => rfl
  | .bodyFirst body condition, r => (tail_visitAll body _).trans (tail_visitAll condition r)
theorem tail_visitAll : ∀ (items : List Item) (r : Resolver),
    (visitAll items r).scopes.tail = r.scopes.tail
  | [], _ => rfl
  | item :: rest, r => (tail_visitAll rest _).trans (tail_visit item r)
end

mutual
theorem scopes_visit_of_declared_eq_nil : ∀ (item : Item) (r : Resolver),
    Placed item → declared item = [] → (visit item r).scopes = r.scopes
  | .need message name span, r, _, _ => by
    simp only [visit, Resolver.need]
    split <;> rfl
  | .declare _ _, _, _, h => by simp [declared] at h
  | .bring _ _, _, _, h => by simp [declared] at h
  | .scope items, r, _, _ => tail_visitAll items { r with scopes := [] :: r.scopes }
  | .asyncBody items, r, hp, _ => scopes_visitAll_of_declared_eq_nil items r hp.2 hp.1
  | .unvisited _, _, _, _ => rfl
  | .bodyFirst body condition, r, hp, _ =>
    (scopes_visitAll_of_declared_eq_nil body _ hp.1.2 hp.1.1).trans
      (scopes_visitAll_of_declared_eq_nil condition r hp.2.2 hp.2.1)
theorem scopes_visitAll_of_declared_eq_nil : ∀ (items : List Item) (r : Resolver),
    AllPlaced items → listDeclared items = [] → (visitAll items r).scopes = r.scopes
  | [], _, _, _ => rfl
  | item :: rest, r, hp, h => by
    simp only [listDeclared, List.append_eq_nil_iff] at h
    exact (scopes_visitAll_of_declared_eq_nil rest _ hp.2 h.2).trans
      (scopes_visit_of_declared_eq_nil item r hp.1 h.1)
end

end Item

/-! ### Every visit -/

open Names.Item in
/-- After an item the scopes of the language and of the resolver still hold the same names. -/
theorem Visited.sees {item : Item} {lex : List (List String)} {r : Resolver} {f u : List Report}
    (h : Visited f u lex (scopesAfter item lex) r (visit item r)) (hs : Sees lex r.scopes)
    (hp : Placed item) (ha : declared item = [] ∨ Agrees lex r.scopes) :
    Sees (scopesAfter item lex) (visit item r).scopes := by
  rcases ha with ha | ha
  · rw [scopesAfter_of_declared_eq_nil item lex ha, scopes_visit_of_declared_eq_nil item r hp ha]
    exact hs
  · exact (h.agrees ha).sees

namespace Item

mutual
theorem visited_visit : ∀ (item : Item) (lex : List (List String)) (r : Resolver),
    Sees lex r.scopes → Placed item → (declared item = [] ∨ Agrees lex r.scopes) →
      Visited (faults lex item) (unreported lex item) lex (scopesAfter item lex) r (visit item r)
  | .need message name span, lex, r, hs, _, _ => visited_need name span message hs
  | .declare name span, lex, r, _, _, ha => by
    rcases ha with ha | ha
    · simp [declared] at ha
    · exact visited_define name span ha
  | .bring name span, lex, r, _, _, ha => by
    rcases ha with ha | ha
    · simp [declared] at ha
    · exact visited_bring name span ha
  | .scope items, lex, r, hs, hp, _ => by
    have h := visited_visitAll items ([] :: lex) { r with scopes := [] :: r.scopes } hs.enter.sees
      hp (.inr hs.enter)
    have hscopes : (visit (.scope items) r).scopes = r.scopes :=
      tail_visitAll items { r with scopes := [] :: r.scopes }
    exact ⟨h.errors, fun ha => by rwa [hscopes]⟩
  | .asyncBody items, lex, r, hs, hp, _ =>
    (visited_visitAll items ([] :: lex) r hs.push hp.2 (.inl hp.1)).of_scopes_eq
      (scopes_visitAll_of_declared_eq_nil items r hp.2 hp.1)
  | .unvisited items, lex, r, _, hp, _ => by
    have hafter : scopesAfter (.unvisited items) lex = lex :=
      listAfter_of_declared_eq_nil items lex hp
    rw [hafter]
    exact ⟨⟨[], by simp [visit], rfl⟩, fun ha => ha⟩
  | .bodyFirst body condition, lex, r, hs, hp, _ => by
    have hbody : listAfter body lex = lex := listAfter_of_declared_eq_nil body lex hp.1.1
    have hscopes : (visitAll condition r).scopes = r.scopes :=
      scopes_visitAll_of_declared_eq_nil condition r hp.2.2 hp.2.1
    have hafter : listAfter condition lex = lex :=
      listAfter_of_declared_eq_nil condition lex hp.2.1
    have hc := visited_visitAll condition lex r hs hp.2.2 (.inl hp.2.1)
    have hb := visited_visitAll body lex (visitAll condition r) (by rwa [hscopes]) hp.1.2
      (.inl hp.1.1)
    rw [hafter] at hc
    rw [hbody] at hb
    simp only [faults, unreported, scopesAfter, hbody, hafter]
    -- The resolver goes through the condition first; the same faults are found.
    exact (hc.trans hb).perm List.perm_append_comm List.perm_append_comm
theorem visited_visitAll : ∀ (items : List Item) (lex : List (List String)) (r : Resolver),
    Sees lex r.scopes → AllPlaced items → (listDeclared items = [] ∨ Agrees lex r.scopes) →
      Visited (listFaults lex items) (listUnreported lex items) lex (listAfter items lex) r
        (visitAll items r)
  | [], lex, r, _, _, _ => .refl
  | item :: rest, lex, r, hs, hp, ha => by
    have hfirst : declared item = [] ∨ Agrees lex r.scopes :=
      ha.imp_left fun h => (List.append_eq_nil_iff.mp h).1
    have h := visited_visit item lex r hs hp.1 hfirst
    have hrest : listDeclared rest = [] ∨
        Agrees (scopesAfter item lex) (visit item r).scopes :=
      ha.imp (fun h => (List.append_eq_nil_iff.mp h).2) h.agrees
    exact h.trans (visited_visitAll rest _ _ (h.sees hs hp.1 hfirst) hp.2 hrest)
end

end Item

/-! ### Programs -/

/-- The faults of a program: its names without a declaration in scope and the names that one of
its scopes declares twice. -/
def programFaults (statements : List Stmt) : List Report :=
  Item.listFaults languageScopes (programItems statements)

/-- The faults of a program that the resolver does not report. -/
def programUnreported (statements : List Stmt) : List Report :=
  Item.listUnreported languageScopes (programItems statements)

/-- The resolver reports the faults of the program, each as often as it stands there. -/
def Exact (statements : List Stmt) : Prop :=
  ((resolveProgram statements).map ResolveError.report).Perm (programFaults statements)

theorem agrees_new : Agrees languageScopes Resolver.new.scopes where
  sees :=
    { visible := fun x => by
        simp only [languageScopes, Resolver.new, visible, List.any_cons, List.any_nil,
          List.contains_cons, List.contains_nil, Bool.or_false]
        ac_rfl
      two_le := le_rfl
      one_le := le_rfl
      constructors := fun x hx => by
        simp only [resultConstructor, Bool.or_eq_true, beq_iff_eq] at hx
        rcases hx with rfl | rfl <;> simp [visible, languageScopes] }
  top_level := by simp [languageScopes, Resolver.new]
  innermost x hx := by
    have hother : ¬ (x = "Ok" ∨ x = "Err") := by
      simpa [languageScopes, resultConstructor] using hx
    simp [languageScopes, Resolver.new, not_or.mp hother]

theorem resolveProgram_eq (statements : List Stmt) :
    resolveProgram statements = (Item.visitAll (programItems statements) Resolver.new).errors := by
  rw [resolveProgram, programItems, visit_then (visit_declareAll _) (visit_stmtsItems _)]

/-- The reports of the resolver with the unreported faults are the faults of the program. -/
theorem resolveProgram_perm (statements : List Stmt)
    (h : Item.AllPlaced (programItems statements)) :
    ((resolveProgram statements).map ResolveError.report ++ programUnreported statements).Perm
      (programFaults statements) := by
  obtain ⟨found, herrors, hfound⟩ :=
    (Item.visited_visitAll _ _ _ agrees_new.sees h (.inr agrees_new)).errors
  have hfound' : resolveProgram statements = found := by
    rw [resolveProgram_eq, herrors]
    rfl
  rw [hfound']
  exact Multiset.coe_eq_coe.mp hfound

/-- Where every declaration stands in a scope the resolver opens, it reports the faults of the
program exactly when none of them is in a part it does not visit, or a result constructor declared
again. -/
theorem exact_iff_unreported_eq_nil (statements : List Stmt)
    (h : Item.AllPlaced (programItems statements)) :
    Exact statements ↔ programUnreported statements = [] := by
  have hperm := resolveProgram_perm statements h
  constructor
  · intro hexact
    have hlength := hexact.length_eq
    have htotal := hperm.length_eq
    rw [List.length_append, hlength] at htotal
    exact List.length_eq_zero_iff.mp (by omega)
  · intro hnil
    rwa [hnil, List.append_nil] at hperm

def word (text : String) (start stop : ℕ) : Token :=
  ⟨.identifier text, ⟨start, stop, 1, start + 1⟩⟩

/-- `fun f(v) { match (v) { case Ok(n) if guard => say(n) } }`. -/
def guardedArm (guard : Token) : List Stmt :=
  [.function (word "f" 4 5) [] [⟨word "v" 6 7, none⟩] none
    [.match (.variable (word "v" 18 19))
      [.mk (.call (.variable (word "Ok" 28 30)) ⟨30, 31, 1, 31⟩ [.variable (word "n" 31 32)])
        (some ⟨word "Ok" 28 30, some (word "n" 31 32)⟩) (some (.variable guard))
        (.say (.variable (word "n" 52 53)) ⟨48, 51, 1, 49⟩) ⟨23, 27, 1, 24⟩] none]]

theorem placed_guardedArm (guard : Token) : Item.AllPlaced (programItems (guardedArm guard)) := by
  change Item.AllPlaced
    [.declare "f" (word "f" 4 5).span,
      .scope [.declare "v" (word "v" 6 7).span,
        .need undefinedName "v" (word "v" 18 19).span,
        .scope [.declare "n" (word "n" 31 32).span,
          .unvisited [.need undefinedName guard.lexeme guard.span],
          .need undefinedName "n" (word "n" 52 53).span]]]
  simp [Item.AllPlaced, Item.Placed, Item.listDeclared, Item.declared]

theorem exact_guardedArm : Exact (guardedArm (word "n" 37 38)) := by
  refine (exact_iff_unreported_eq_nil _ (placed_guardedArm _)).mpr ?_
  decide

/-- The guard of an arm with a variant pattern may name anything. -/
theorem not_exact_guardedArm : ¬ Exact (guardedArm (word "missing" 37 44)) := by
  intro h
  have hlength := h.length_eq
  revert hlength
  decide

end Neutron.Names
