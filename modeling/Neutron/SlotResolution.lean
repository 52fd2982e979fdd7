import Mathlib.Data.List.Nodup
import Neutron.SlotScopes

/-!
# Slots and scopes

The map of the code generator and the scopes of the language side by side: one environment that
keeps every declaration of a body, with two marks that say whether the map still holds it and
whether it is still in scope. The code loads and stores the slot that lexical scoping selects
exactly when no use finds a declaration under its name that only one of them has.
-/

namespace Neutron.Slots
open Source

structure Binding where
  name : String
  slot : ℕ
  inMap : Bool
  inScope : Bool

/-- What is left of a declaration after a construct around it. -/
def Binding.leave (construct : Construct) (b : Binding) : Binding :=
  { b with
    inMap := b.inMap && !emitRestores construct
    inScope := b.inScope && !scopeEnds construct }

def bindings : Scoping (List Binding) where
  declare name slot bound env := ⟨name, slot, bound, true⟩ :: env
  leave construct before env :=
    (env.take (env.length - before.length)).map (Binding.leave construct) ++ before

/-- The uses of a body, each with the declarations before it. -/
def occurrences (m : Surroundings) (params : List String) (body : List Stmt) :
    List (Use × List Binding) :=
  (run bindings (bodySteps m params body) (start [])).accesses

/-- The last declaration of the name that the map or the scopes have is one that both have; a
routed use finds none in scope. -/
def Settled (u : Use) (env : List Binding) : Prop :=
  if u.routed then ∀ b ∈ env, b.name = u.name → b.inScope = false
  else ∀ b, env.find? (fun b => b.name == u.name && (b.inMap || b.inScope)) = some b →
    b.inMap = true ∧ b.inScope = true

/-! ### Both environments from one -/

/-- The entries of the declarations with a mark. -/
def view (mark : Binding → Bool) (env : List Binding) : SlotMap :=
  (env.filter mark).map fun b => (b.name, b.slot)

def Emission.map {ε ε' : Type} (f : ε → ε') (s : Emission ε) : Emission ε' :=
  ⟨f s.env, s.next, s.terminated, s.failed, s.accesses.map fun a => (a.1, f a.2)⟩

theorem leave_append (construct : Construct) (added before : List Binding) :
    bindings.leave construct before (added ++ before) =
      added.map (Binding.leave construct) ++ before := by
  simp [bindings]

mutual
theorem suffix_step : ∀ (a : Step) (s : Emission (List Binding)), s.env <:+ (step bindings a s).env
  | .use u, s => by
    simp only [step]
    split <;> exact List.suffix_refl _
  | .declare name bound, s => by
    simp only [step]
    split
    · exact List.suffix_refl _
    · exact List.suffix_cons _ _
  | .inside construct body, s => by
    simp only [step]
    split
    · exact List.suffix_refl _
    · exact List.suffix_append _ _
  | .branch body, s => by
    simp only [step]
    split
    · exact List.suffix_refl _
    · exact suffix_run body s
  | .stop, _ => List.suffix_refl _
  | .fail, s => by
    simp only [step]
    split <;> exact List.suffix_refl _
/-- Declarations are only added, in front. -/
theorem suffix_run : ∀ (steps : List Step) (s : Emission (List Binding)),
    s.env <:+ (run bindings steps s).env
  | [], _ => List.suffix_refl _
  | a :: rest, s => (suffix_step a s).trans (suffix_run rest (step bindings a s))
end

section
variable {mark : Binding → Bool} {enters : Bool → Bool} {ends : Construct → Bool}

variable (enters) in
theorem view_leave (hmark : ∀ k b, mark (Binding.leave k b) = (mark b && !ends k))
    (construct : Construct) {before env : List Binding} (h : before <:+ env) :
    view mark (bindings.leave construct before env) =
      (slotMap enters ends).leave construct (view mark before) (view mark env) := by
  obtain ⟨added, rfl⟩ := h
  rw [leave_append]
  simp only [view, slotMap, List.filter_append, List.map_append]
  cases hends : ends construct with
  | true =>
    have hnone : (added.map (Binding.leave construct)).filter mark = [] := by
      simp [List.filter_map, hmark, hends]
    rw [hnone]
    rfl
  | false =>
    have hsame : (added.map (Binding.leave construct)).filter mark =
        (added.filter mark).map (Binding.leave construct) := by
      simp [List.filter_map, hmark, hends, Function.comp_def]
    rw [hsame, List.map_map]
    rfl

mutual
theorem step_map (hdeclare : ∀ x n bound, mark ⟨x, n, bound, true⟩ = enters bound)
    (hmark : ∀ k b, mark (Binding.leave k b) = (mark b && !ends k)) :
    ∀ (a : Step) (s : Emission (List Binding)),
      step (slotMap enters ends) a (s.map (view mark)) = (step bindings a s).map (view mark)
  | .use u, s => by
    cases h : s.terminated <;> simp [step, Emission.map, h]
  | .declare name bound, s => by
    cases h : s.terminated with
    | true => simp [step, Emission.map, h]
    | false =>
      cases hbound : enters bound with
      | true => simp [step, Emission.map, h, bindings, slotMap, view, hdeclare, hbound]
      | false => simp [step, Emission.map, h, bindings, slotMap, view, hdeclare, hbound]
  | .inside construct body, s => by
    have hrun := run_map hdeclare hmark body s
    have hleave := view_leave enters hmark construct (suffix_run body s)
    cases h : s.terminated with
    | true => simp [step, Emission.map, h]
    | false =>
      simp only [step, hrun, h]
      simp [Emission.map, h, hleave]
  | .branch body, s => by
    have hrun := run_map hdeclare hmark body s
    cases h : s.terminated with
    | true => simp [step, Emission.map, h]
    | false =>
      simp only [step, hrun, h]
      simp [Emission.map, h]
  | .stop, _ => rfl
  | .fail, s => by
    cases h : s.terminated <;> simp [step, Emission.map, h]
theorem run_map (hdeclare : ∀ x n bound, mark ⟨x, n, bound, true⟩ = enters bound)
    (hmark : ∀ k b, mark (Binding.leave k b) = (mark b && !ends k)) :
    ∀ (steps : List Step) (s : Emission (List Binding)),
      run (slotMap enters ends) steps (s.map (view mark)) = (run bindings steps s).map (view mark)
  | [], _ => rfl
  | a :: rest, s => by
    simp only [run, step_map hdeclare hmark a s]
    exact run_map hdeclare hmark rest (step bindings a s)
end

end

/-! ### Every declaration has its own slot -/

def slots (env : List Binding) : List ℕ := env.map Binding.slot

structure Numbered (s : Emission (List Binding)) : Prop where
  fresh : ∀ n ∈ slots s.env, n < s.next
  apart : (slots s.env).Nodup
  accesses : ∀ a ∈ s.accesses, (slots a.2).Nodup

theorem slots_leave (construct : Construct) {before env : List Binding} (h : before <:+ env) :
    slots (bindings.leave construct before env) = slots env := by
  obtain ⟨added, rfl⟩ := h
  rw [leave_append]
  simp only [slots, List.map_append, List.map_map]
  rfl

mutual
theorem Numbered.step : ∀ (a : Step) {s : Emission (List Binding)}, Numbered s →
    Numbered (step bindings a s)
  | .use u, s, h => by
    simp only [Slots.step]
    split
    · exact h
    · refine ⟨h.fresh, h.apart, fun a ha => ?_⟩
      rcases List.mem_append.mp ha with ha | ha
      · exact h.accesses a ha
      · rw [List.mem_singleton.mp ha]
        exact h.apart
  | .declare name bound, s, h => by
    simp only [Slots.step]
    split
    · exact h
    · refine ⟨fun n hn => ?_, ?_, h.accesses⟩
      · rcases List.mem_cons.mp hn with rfl | hn
        · exact Nat.lt_succ_self _
        · exact Nat.lt_succ_of_lt (h.fresh n hn)
      · exact List.nodup_cons.mpr ⟨fun hn => Nat.lt_irrefl _ (h.fresh _ hn), h.apart⟩
  | .inside construct body, s, h => by
    simp only [Slots.step]
    split
    · exact h
    · have hrun := Numbered.run body h
      have hslots := slots_leave construct (suffix_run body s)
      exact ⟨by rw [hslots]; exact hrun.fresh, by rw [hslots]; exact hrun.apart, hrun.accesses⟩
  | .branch body, s, h => by
    simp only [Slots.step]
    split
    · exact h
    · have hrun := Numbered.run body h
      exact ⟨hrun.fresh, hrun.apart, hrun.accesses⟩
  | .stop, _, h => ⟨h.fresh, h.apart, h.accesses⟩
  | .fail, s, h => by
    simp only [Slots.step]
    split
    · exact h
    · exact ⟨h.fresh, h.apart, h.accesses⟩
theorem Numbered.run : ∀ (steps : List Step) {s : Emission (List Binding)}, Numbered s →
    Numbered (run bindings steps s)
  | [], _, h => h
  | a :: rest, _, h => Numbered.run rest (Numbered.step a h)
end

theorem numbered_start : Numbered (start []) := ⟨by simp [slots, start], by simp [slots, start],
  by simp [start]⟩

/-! ### Looking a name up -/

section
variable {env : List Binding} (name : String)

theorem lookup_view (mark : Binding → Bool) :
    (view mark env).lookup name =
      (env.find? fun b => b.name == name && mark b).map Binding.slot := by
  induction env with
  | nil => rfl
  | cons b env ih =>
    by_cases hname : b.name = name <;> by_cases hmark : mark b = true
    · subst hname
      simp [view, hmark]
    · simpa [view, hmark] using ih
    · have hother : (name == b.name) = false := by simpa using Ne.symm hname
      simpa [view, hmark, hname, List.lookup_cons, hother] using ih
    · simpa [view, hmark, hname] using ih

/-- The first declaration of the name with one of two marks, where it has the other mark too. -/
theorem find?_eq_of_find?_or {p q : Binding → Bool} {b : Binding}
    (h : env.find? (fun b => b.name == name && (p b || q b)) = some b) (hp : p b = true) :
    env.find? (fun b => b.name == name && p b) = some b := by
  rw [List.find?_eq_some_iff_append] at h ⊢
  obtain ⟨hb, before, after, henv, hbefore⟩ := h
  refine ⟨?_, before, after, henv, fun a ha => ?_⟩
  · simp only [Bool.and_eq_true] at hb ⊢
    exact ⟨hb.1, hp⟩
  · have hnot := hbefore a ha
    simp only [Bool.not_eq_eq_eq_not, Bool.not_true, Bool.and_eq_false_iff,
      Bool.or_eq_false_iff] at hnot ⊢
    exact hnot.imp_right And.left

theorem eq_of_slot_eq (h : (slots env).Nodup) {b b' : Binding} (hb : b ∈ env) (hb' : b' ∈ env)
    (hslot : b.slot = b'.slot) : b = b' :=
  List.inj_on_of_nodup_map h hb hb' hslot

/-- A use that is not routed is settled when both marks give one declaration. -/
theorem settled_iff (h : (slots env).Nodup) :
    Settled ⟨name, false⟩ env ↔
      (view Binding.inMap env).lookup name = (view Binding.inScope env).lookup name := by
  rw [lookup_view, lookup_view]
  simp only [Settled, Bool.false_eq_true, if_false]
  have hswap : (fun b : Binding => b.name == name && (b.inMap || b.inScope)) =
      fun b => b.name == name && (b.inScope || b.inMap) := by
    funext b
    rw [Bool.or_comm]
  cases hfirst : env.find? (fun b => b.name == name && (b.inMap || b.inScope)) with
  | none =>
    have hnone : ∀ p : Binding → Bool, (∀ b, p b = true → (b.inMap || b.inScope) = true) →
        env.find? (fun b => b.name == name && p b) = none := by
      intro p hp
      rw [List.find?_eq_none] at hfirst ⊢
      intro b hb hpb
      simp only [Bool.and_eq_true] at hpb
      exact hfirst b hb (by simp [hpb.1, hp b hpb.2])
    rw [hnone Binding.inMap (fun b hb => by simp [hb]),
      hnone Binding.inScope (fun b hb => by simp [hb])]
    simp
  | some b =>
    have hmap := fun hb => find?_eq_of_find?_or name (p := Binding.inMap) hfirst hb
    have hscope := fun hb => find?_eq_of_find?_or name (p := Binding.inScope) (hswap ▸ hfirst) hb
    have hmem : b ∈ env := List.mem_of_find?_eq_some hfirst
    constructor
    · intro hsettled
      obtain ⟨hin, hsc⟩ := hsettled b rfl
      rw [hmap hin, hscope hsc]
    · rintro heq b' hb'
      obtain rfl := Option.some.inj hb'
      have heither := List.find?_some hfirst
      simp only [Bool.and_eq_true, Bool.or_eq_true] at heither
      rcases heither.2 with hin | hsc
      · rw [hmap hin, Option.map_some] at heq
        obtain ⟨b', hb', hslot⟩ := Option.map_eq_some_iff.mp heq.symm
        have hsame := eq_of_slot_eq h (List.mem_of_find?_eq_some hb') hmem hslot
        have hmark := List.find?_some hb'
        simp only [hsame, Bool.and_eq_true] at hmark
        exact ⟨hin, hmark.2⟩
      · rw [hscope hsc, Option.map_some] at heq
        obtain ⟨b', hb', hslot⟩ := Option.map_eq_some_iff.mp heq
        have hsame := eq_of_slot_eq h (List.mem_of_find?_eq_some hb') hmem hslot
        have hmark := List.find?_some hb'
        simp only [hsame, Bool.and_eq_true] at hmark
        exact ⟨hmark.2, hsc⟩

theorem settled_routed_iff :
    Settled ⟨name, true⟩ env ↔ (view Binding.inScope env).lookup name = none := by
  rw [lookup_view]
  simp [Settled]

end

/-! ### Bodies -/

theorem run_slotMap (mark : Binding → Bool) (enters : Bool → Bool) (ends : Construct → Bool)
    (hdeclare : ∀ x n bound, mark ⟨x, n, bound, true⟩ = enters bound)
    (hmark : ∀ k b, mark (Binding.leave k b) = (mark b && !ends k)) (steps : List Step) :
    run (slotMap enters ends) steps (start []) = (run bindings steps (start [])).map (view mark) :=
  run_map hdeclare hmark steps (start [])

/-- The emission of a body succeeds and its uses get the slots that lexical scoping selects. -/
def Resolves (m : Surroundings) (params : List String) (body : List Stmt) : Prop :=
  (run (slotMap id emitRestores) (bodySteps m params body) (start [])).failed = false ∧
    emittedSlots m params body = lexicalSlots m params body

def identifier (text : String) (start : ℕ) (line : ℕ) : Token :=
  ⟨.identifier text, ⟨start, start + 1, line, 1⟩⟩

/-- A body without calls and tuples. -/
def plainSurroundings : Surroundings :=
  ⟨fun _ => false, fun _ _ => false, fun _ => [], fun _ => none, fun _ => false⟩

/-- `var x = 1`, `for (var x in y) { }`, `say(x)`. -/
def reusedName : List Stmt :=
  [.var (identifier "x" 4 1) none (some (.literal (.number "1") ⟨8, 9, 1, 9⟩)) false false none,
    .forIn (identifier "x" 19 2) (.variable (identifier "y" 24 2))
      (.block [] ⟨27, 28, 2, 18⟩ ⟨29, 30, 2, 20⟩),
    .say (.variable (identifier "x" 35 3)) ⟨31, 34, 3, 1⟩]

end Neutron.Slots
