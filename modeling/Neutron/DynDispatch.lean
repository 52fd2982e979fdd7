import Mathlib.Data.List.Induction
import Neutron.PrepareProgram

/-!
# Trait objects

A `dyn` value carries the address of the vtable of its trait and class. A vtable is a global that
the first coercion with its name creates; the slots are filled in when all bodies are emitted, the
drop wrapper in front and then the methods of the trait. A call through a `dyn` value takes the
slot from the trait's table, a direct call looks for the class that declares the method.

A method of a class is the function with the name of the class, a dot and the name of the method.
No name of a class or a method has a dot, so the pair stands for it here.
-/

namespace Neutron.Dyn
open Syntax Generics

/-! ### Representations -/

/-- The types of the target language. -/
inductive Representation where
  | i64
  | double
  | i1
  | ptr
  | struct (fields : List Representation)

mutual
/-- `ty_to_llvm` of the type an annotation stands for. -/
def representation : TypeAnnotation → Representation
  | .int => .i64
  | .float => .double
  | .string => .i64
  | .bool => .i1
  | .array _ => .i64
  | .object => .i64
  | .option _ => .i64
  | .result _ _ => .i64
  | .view inner _ => representation inner
  | .shared _ => .i64
  | .any => .i64
  | .pointer => .i64
  | .slice _ => .i64
  | .own _ => .ptr
  | .ref _ _ => .ptr
  | .rawPointer _ _ => .ptr
  | .named _ => .ptr
  | .implTrait _ => .i64
  | .dyn _ => .ptr
  | .tuple elements => .struct (representations elements)
  | .chan _ => .i64
def representations : List TypeAnnotation → List Representation
  | [] => []
  | ty :: rest => representation ty :: representations rest
end

/-- A parameter without annotation is of type `any`. -/
def paramRepresentation : Option TypeAnnotation → Representation
  | none => .i64
  | some ty => representation ty

/-- How a method takes its parameters after the instance, and its result. -/
structure Signature where
  params : List Representation
  result : Option Representation

def signature (params : List (Option TypeAnnotation)) (returnType : Option TypeAnnotation) :
    Signature :=
  ⟨params.map paramRepresentation, returnType.map representation⟩

/-! ### Classes -/

structure ClassInfo where
  parent : Option Name
  methods : List (Name × Signature)

/-- The methods of a class body. -/
def methodSignatures : List Stmt → List (Name × Signature)
  | [] => []
  | .function false name _ params returnType _ :: rest =>
    (name, signature (params.map FunctionParam.ann) returnType) :: methodSignatures rest
  | _ :: rest => methodSignatures rest

/-- The classes of a program. -/
def classTable : List Stmt → List (Name × ClassInfo)
  | [] => []
  | .classDecl name _ parent body :: rest =>
    (name, ⟨parent, methodSignatures body⟩) :: classTable rest
  | _ :: rest => classTable rest

/-- What the code generator has of a program. -/
structure Emitted where
  classes : List (Name × ClassInfo)
  tables : List (Name × List TraitMethodInfo)

def emitted (p : Prepared) : Emitted := ⟨classTable p.program.statements, p.traitObjectTables⟩

namespace Emitted
variable (e : Emitted)

def traitMethods (traitName : Name) : List TraitMethodInfo := (e.tables.lookup traitName).getD []

/-- The method of a trait, as its table has it. -/
def traitMethod (traitName method : Name) : Option TraitMethodInfo :=
  (e.traitMethods traitName).find? fun info => info.name == method

/-- The function of a class and a method, with how it takes its arguments. -/
def getFunction (className method : Name) : Option Signature :=
  (e.classes.lookup className).bind fun info => info.methods.lookup method

/-- `class_method_declaring_class`, through at most so many parents. -/
def declaringClass (method : Name) : ℕ → Name → Option Name
  | 0, _ => none
  | n + 1, className =>
    if (e.getFunction className method).isSome then some className
    else ((e.classes.lookup className).bind ClassInfo.parent).bind (declaringClass method n)

/-- A direct call: the function it runs and how that takes its arguments. -/
def staticCall (className method : Name) : Option ((Name × Name) × Signature) :=
  (e.declaringClass method (e.classes.length + 1) className).bind fun declaring =>
    (e.getFunction declaring method).map fun s => ((declaring, method), s)

end Emitted

/-! ### Vtables -/

/-- The end of the names of the globals of a trait and a class. -/
def joined (pair : Name × Name) : String := pair.1 ++ "_" ++ pair.2

def vtableName (pair : Name × Name) : String := "__ntsc_vtable_" ++ joined pair

def dropName (pair : Name × Name) : String := "__ntsc_dyn_drop_" ++ joined pair

local instance lawfulPair : LawfulBEq (Name × Name) := inferInstance

structure Vtables where
  globals : List String
  pending : List (Name × Name)

def getOrCreateVtable (v : Vtables) (pair : Name × Name) : Vtables :=
  if vtableName pair ∈ v.globals then v
  else
    { globals := v.globals ++ [vtableName pair]
      pending := if pair ∈ v.pending then v.pending else v.pending ++ [pair] }

/-- The coercions of all bodies, in the order they are emitted. -/
def coerceAll (coercions : List (Name × Name)) : Vtables :=
  coercions.foldl getOrCreateVtable ⟨[], []⟩

inductive Slot where
  /-- The drop wrapper for the fields of a class. -/
  | drop (className : Name)
  | method (className method : Name)
  deriving DecidableEq

/-- The drop wrappers by name and the vtables that are filled in. -/
structure Filled where
  wrappers : List (String × Name)
  vtables : List (String × List Slot)

/-- `get_or_create_dyn_drop_wrapper`. -/
def dropWrapper (f : Filled) (pair : Name × Name) : Filled × Slot :=
  match f.wrappers.lookup (dropName pair) with
  | some className => (f, .drop className)
  | none => ({ f with wrappers := (dropName pair, pair.2) :: f.wrappers }, .drop pair.2)

namespace Emitted
variable (e : Emitted)

/-- The slots of the methods; a method the class does not have is an error. -/
def methodSlots (className : Name) : List TraitMethodInfo → Option (List Slot)
  | [] => some []
  | info :: rest =>
    if (e.getFunction className info.name).isSome then
      (methodSlots className rest).map (Slot.method className info.name :: ·)
    else none

def fillVtable (f : Filled) (pair : Name × Name) : Option Filled :=
  match dropWrapper f pair with
  | (f, wrapper) =>
    (e.methodSlots pair.2 (e.traitMethods pair.1)).map fun slots =>
      { f with vtables := (vtableName pair, wrapper :: slots) :: f.vtables }

/-- `finalize_trait_vtables`. -/
def finalizeTraitVtables : List (Name × Name) → Filled → Option Filled
  | [], f => some f
  | pair :: rest, f => (e.fillVtable f pair).bind (finalizeTraitVtables rest)

/-- A call through a `dyn` value of the trait that holds an instance of the class: what the slot
holds, and how the call passes its arguments. -/
def dynCall (f : Filled) (pair : Name × Name) (method : Name) : Option (Slot × Signature) :=
  match (e.traitMethods pair.1).findIdx? (fun info => info.name == method),
    e.traitMethod pair.1 method with
  | some index, some info =>
    ((f.vtables.lookup (vtableName pair)).bind fun slots => slots[index + 1]?).map fun slot =>
      (slot, signature info.params info.returnType)
  | _, _ => none

end Emitted

/-- What dropping a `dyn` value runs on the instance. -/
def dynDrop (f : Filled) (pair : Name × Name) : Option Slot :=
  (f.vtables.lookup (vtableName pair)).bind fun slots => slots[0]?

/-- The vtables are built, a call through a `dyn` value runs the function a direct call runs and
passes the arguments as it takes them, the drop runs the one of the class, and different pairs have
different globals. -/
def Emitted.Dispatches (e : Emitted) (coercions : List (Name × Name)) : Prop :=
  ∃ f, e.finalizeTraitVtables (coerceAll coercions).pending ⟨[], []⟩ = some f ∧
    (∀ pair ∈ coercions,
      dynDrop f pair = some (.drop pair.2) ∧
      ∀ method info, e.traitMethod pair.1 method = some info → ∃ declaring s,
        e.staticCall pair.2 method = some ((declaring, method), s) ∧
        e.dynCall f pair method = some (.method declaring method, s)) ∧
    ∀ pair ∈ coercions, ∀ pair' ∈ coercions, pair ≠ pair' →
      vtableName pair ≠ vtableName pair' ∧ dropName pair ≠ dropName pair'

/-- Every class that is coerced has the methods of the trait itself, and takes their arguments as
the trait declares them. -/
def Emitted.Declares (e : Emitted) (coercions : List (Name × Name)) : Prop :=
  ∀ pair ∈ coercions, ∀ method info, e.traitMethod pair.1 method = some info →
    e.getFunction pair.2 method = some (signature info.params info.returnType)

/-- No two pairs that are coerced give the same name when they are joined. -/
def Unambiguous (coercions : List (Name × Name)) : Prop :=
  ∀ pair ∈ coercions, ∀ pair' ∈ coercions, joined pair = joined pair' → pair = pair'

/-! ### The globals -/

theorem vtableName_inj {pair pair' : Name × Name} :
    vtableName pair = vtableName pair' ↔ joined pair = joined pair' :=
  String.append_right_inj _

theorem dropName_inj {pair pair' : Name × Name} :
    dropName pair = dropName pair' ↔ joined pair = joined pair' :=
  String.append_right_inj _

/-- The globals are those of the pending pairs, which are among the coercions so far; every
coercion has a global. -/
structure Created (coercions : List (Name × Name)) (v : Vtables) : Prop where
  globals : v.globals = v.pending.map vtableName
  pending : ∀ pair ∈ v.pending, pair ∈ coercions
  every : ∀ pair ∈ coercions, vtableName pair ∈ v.globals
  apart : v.globals.Nodup

theorem Created.step {coercions : List (Name × Name)} {v : Vtables} (h : Created coercions v)
    (pair : Name × Name) : Created (coercions ++ [pair]) (getOrCreateVtable v pair) := by
  unfold getOrCreateVtable
  by_cases hmem : vtableName pair ∈ v.globals
  · rw [if_pos hmem]
    refine ⟨h.globals, fun q hq => List.mem_append_left _ (h.pending q hq), ?_, h.apart⟩
    intro q hq
    rcases List.mem_append.mp hq with hq | hq
    · exact h.every q hq
    · rwa [List.mem_singleton.mp hq]
  · have hfresh : pair ∉ v.pending := by
      intro hp
      rw [h.globals] at hmem
      exact hmem (List.mem_map_of_mem hp)
    rw [if_neg hmem, if_neg hfresh]
    refine ⟨?_, ?_, ?_, ?_⟩
    · rw [h.globals, List.map_append]
      rfl
    · intro q hq
      rcases List.mem_append.mp hq with hq | hq
      · exact List.mem_append_left _ (h.pending q hq)
      · exact List.mem_append_right _ hq
    · intro q hq
      rcases List.mem_append.mp hq with hq | hq
      · exact List.mem_append_left _ (h.every q hq)
      · rw [List.mem_singleton.mp hq]
        exact List.mem_append_right _ (List.mem_singleton_self _)
    · refine List.nodup_append.mpr ⟨h.apart, List.nodup_singleton _, ?_⟩
      rintro name hname other hother rfl
      rw [List.mem_singleton.mp hother] at hname
      exact hmem hname

theorem created_coerceAll (coercions : List (Name × Name)) :
    Created coercions (coerceAll coercions) := by
  induction coercions using List.reverseRec with
  | nil => exact ⟨rfl, by simp [coerceAll], by simp, by simp [coerceAll]⟩
  | append_singleton coercions pair ih =>
    have hfold : coerceAll (coercions ++ [pair]) = getOrCreateVtable (coerceAll coercions) pair :=
      List.foldl_concat _ _ _ _
    rw [hfold]
    exact ih.step pair

/-- Where the names are apart every coercion has a vtable of its own. -/
theorem mem_pending {coercions : List (Name × Name)} (h : Unambiguous coercions)
    {pair : Name × Name} (hpair : pair ∈ coercions) : pair ∈ (coerceAll coercions).pending := by
  have hcreated := created_coerceAll coercions
  have hname := hcreated.every pair hpair
  rw [hcreated.globals] at hname
  obtain ⟨other, hother, heq⟩ := List.mem_map.mp hname
  have hsame := h other (hcreated.pending other hother) pair hpair (vtableName_inj.mp heq)
  rwa [← hsame]

/-! ### The slots -/

namespace Emitted
variable {e : Emitted}

theorem methodSlots_eq {className : Name} {methods : List TraitMethodInfo}
    (h : ∀ info ∈ methods, (e.getFunction className info.name).isSome) :
    e.methodSlots className methods =
      some (methods.map fun info => .method className info.name) := by
  induction methods with
  | nil => rfl
  | cons info rest ih =>
    have hrest := ih fun other hother => h other (List.mem_cons_of_mem _ hother)
    simp [methodSlots, h info List.mem_cons_self, hrest]

theorem eq_of_methodSlots {className : Name} {methods : List TraitMethodInfo} {slots : List Slot}
    (h : e.methodSlots className methods = some slots) :
    slots = methods.map fun info => .method className info.name := by
  induction methods generalizing slots with
  | nil => exact (Option.some.inj h).symm
  | cons info rest ih =>
    simp only [methodSlots] at h
    split at h
    · obtain ⟨tail, htail, rfl⟩ := Option.map_eq_some_iff.mp h
      rw [ih htail]
      rfl
    · cases h

/-- The slots of a pair. -/
def slotsOf (e : Emitted) (pair : Name × Name) : List Slot :=
  .drop pair.2 :: (e.traitMethods pair.1).map fun info => .method pair.2 info.name

/-- The vtables of these pairs are filled in, and the drop wrappers are theirs. -/
structure Fills (e : Emitted) (pairs : List (Name × Name)) (f : Filled) : Prop where
  wrappers : ∀ entry ∈ f.wrappers, ∃ pair ∈ pairs, entry.1 = dropName pair
  vtables : ∀ pair ∈ pairs, f.vtables.lookup (vtableName pair) = some (e.slotsOf pair)

theorem Fills.step {pairs : List (Name × Name)} {f f' : Filled} {pair : Name × Name}
    (h : Fills e pairs f) (hapart : ∀ other ∈ pairs, joined other ≠ joined pair)
    (hfill : e.fillVtable f pair = some f') : Fills e (pairs ++ [pair]) f' := by
  have hwrapper : f.wrappers.lookup (dropName pair) = none := by
    rw [List.lookup_eq_none_iff]
    intro entry hentry
    obtain ⟨other, hother, heq⟩ := h.wrappers entry hentry
    have hne : dropName pair ≠ dropName other := fun hsame =>
      hapart other hother (dropName_inj.mp hsame).symm
    rw [heq]
    simpa using hne
  simp only [fillVtable, dropWrapper, hwrapper] at hfill
  obtain ⟨slots, hslots, rfl⟩ := Option.map_eq_some_iff.mp hfill
  refine ⟨?_, ?_⟩
  · intro entry hentry
    rcases List.mem_cons.mp hentry with rfl | hentry
    · exact ⟨pair, List.mem_append_right _ (List.mem_singleton_self _), rfl⟩
    · obtain ⟨other, hother, heq⟩ := h.wrappers entry hentry
      exact ⟨other, List.mem_append_left _ hother, heq⟩
  · intro other hother
    rcases List.mem_append.mp hother with hother | hother
    · have hne : (vtableName other == vtableName pair) = false := by
        simpa [vtableName_inj] using hapart other hother
      rw [List.lookup_cons, hne]
      exact h.vtables other hother
    · rw [List.mem_singleton.mp hother, List.lookup_cons_self, eq_of_methodSlots hslots]
      rfl

theorem Fills.finalize {pairs done : List (Name × Name)} {f f' : Filled} (h : Fills e done f)
    (hapart : (done ++ pairs).Pairwise fun pair pair' => joined pair ≠ joined pair')
    (hfinal : e.finalizeTraitVtables pairs f = some f') : Fills e (done ++ pairs) f' := by
  induction pairs generalizing done f with
  | nil =>
    obtain rfl := Option.some.inj hfinal
    rwa [List.append_nil]
  | cons pair rest ih =>
    obtain ⟨next, hnext, hrest⟩ := Option.bind_eq_some_iff.mp hfinal
    have hbefore : ∀ other ∈ done, joined other ≠ joined pair := fun other hother =>
      (List.pairwise_append.mp hapart).2.2 other hother pair List.mem_cons_self
    have hsplit : done ++ pair :: rest = done ++ [pair] ++ rest := by simp
    rw [hsplit] at hapart ⊢
    exact ih (h.step hbefore hnext) hapart hrest

theorem finalizeTraitVtables_isSome {pairs : List (Name × Name)}
    (h : ∀ pair ∈ pairs, ∀ info ∈ e.traitMethods pair.1,
      (e.getFunction pair.2 info.name).isSome) (f : Filled) :
    ∃ f', e.finalizeTraitVtables pairs f = some f' := by
  induction pairs generalizing f with
  | nil => exact ⟨f, rfl⟩
  | cons pair rest ih =>
    have hslots := methodSlots_eq (h pair List.mem_cons_self)
    simp only [finalizeTraitVtables, fillVtable, hslots, Option.map_some, Option.bind_some]
    exact ih (fun other hother => h other (List.mem_cons_of_mem _ hother)) _

/-! ### Calls -/

theorem isSome_of_declares {coercions : List (Name × Name)} (h : e.Declares coercions)
    {pair : Name × Name} (hpair : pair ∈ coercions) {info : TraitMethodInfo}
    (hinfo : info ∈ e.traitMethods pair.1) : (e.getFunction pair.2 info.name).isSome := by
  have hfind : ((e.traitMethods pair.1).find? fun other => other.name == info.name).isSome := by
    rw [List.find?_isSome]
    exact ⟨info, hinfo, by simp⟩
  obtain ⟨first, hfirst⟩ := Option.isSome_iff_exists.mp hfind
  rw [h pair hpair info.name first hfirst]
  rfl

theorem dynCall_eq {f : Filled} {pair : Name × Name} {method : Name} {info : TraitMethodInfo}
    (hvtable : f.vtables.lookup (vtableName pair) = some (e.slotsOf pair))
    (hinfo : e.traitMethod pair.1 method = some info) :
    e.dynCall f pair method =
      some (.method pair.2 method, signature info.params info.returnType) := by
  have hname : info.name = method := by simpa using List.find?_some hinfo
  cases hindex : (e.traitMethods pair.1).findIdx? (fun info => info.name == method) with
  | none =>
    rw [List.findIdx?_eq_none_iff] at hindex
    have hmem := List.mem_of_find?_eq_some hinfo
    simpa [hname] using hindex info hmem
  | some index =>
    have hget : (e.traitMethods pair.1)[index]? = some info := by
      rw [← hinfo, traitMethod, List.find?_eq_getElem?_findIdx]
      rw [List.findIdx?_eq_some_iff_findIdx_eq] at hindex
      rw [hindex.2]
    simp [dynCall, hindex, hinfo, hvtable, slotsOf, hget, hname]

theorem staticCall_eq {className method : Name} {s : Signature}
    (h : e.getFunction className method = some s) :
    e.staticCall className method = some ((className, method), s) := by
  simp [staticCall, declaringClass, h]

/-- A direct call runs the function it names. -/
theorem getFunction_of_staticCall {className method declaring : Name} {s : Signature}
    (h : e.staticCall className method = some ((declaring, method), s)) :
    e.getFunction declaring method = some s := by
  simp only [staticCall, Option.bind_eq_some_iff, Option.map_eq_some_iff, Prod.mk.injEq] at h
  obtain ⟨found, _, s', hs', ⟨rfl, _⟩, rfl⟩ := h
  exact hs'

/-- Calls through `dyn` values agree with direct calls exactly when every class that is coerced has
the methods of the trait itself, with the trait's representation, and no two pairs are joined to
the same name. -/
theorem dispatches_iff (e : Emitted) (coercions : List (Name × Name)) :
    e.Dispatches coercions ↔ e.Declares coercions ∧ Unambiguous coercions := by
  have hcreated := created_coerceAll coercions
  have hapart : (coerceAll coercions).pending.Pairwise
      fun pair pair' => joined pair ≠ joined pair' := by
    have hnodup := hcreated.apart
    rw [hcreated.globals, List.Nodup, List.pairwise_map] at hnodup
    exact hnodup.imp fun hne heq => hne (vtableName_inj.mpr heq)
  have hempty : Fills e [] ⟨[], []⟩ := ⟨by simp, by simp⟩
  constructor
  · rintro ⟨f, hfinal, hcalls, hnames⟩
    have hunambiguous : Unambiguous coercions := by
      intro pair hpair pair' hpair' hjoined
      by_contra hne
      exact (hnames pair hpair pair' hpair' hne).1 (vtableName_inj.mpr hjoined)
    have hfills := hempty.finalize (by simpa using hapart) hfinal
    refine ⟨fun pair hpair method info hinfo => ?_, hunambiguous⟩
    obtain ⟨declaring, s, hstatic, hdyn⟩ := (hcalls pair hpair).2 method info hinfo
    rw [dynCall_eq (hfills.vtables pair (by simpa using mem_pending hunambiguous hpair)) hinfo]
      at hdyn
    simp only [Option.some.injEq, Prod.mk.injEq, Slot.method.injEq, and_true] at hdyn
    obtain ⟨rfl, rfl⟩ := hdyn
    exact getFunction_of_staticCall hstatic
  · rintro ⟨hdeclares, hunambiguous⟩
    obtain ⟨f, hfinal⟩ := finalizeTraitVtables_isSome
      (fun pair hpair info hinfo =>
        isSome_of_declares hdeclares (hcreated.pending pair hpair) hinfo) ⟨[], []⟩
    have hfills := hempty.finalize (by simpa using hapart) hfinal
    refine ⟨f, hfinal, fun pair hpair => ?_, fun pair hpair pair' hpair' hne => ?_⟩
    · have hvtable := hfills.vtables pair (by simpa using mem_pending hunambiguous hpair)
      refine ⟨by simp [dynDrop, hvtable, slotsOf], fun method info hinfo => ?_⟩
      exact ⟨pair.2, _, staticCall_eq (hdeclares pair hpair method info hinfo),
        dynCall_eq hvtable hinfo⟩
    · have hjoined : joined pair ≠ joined pair' := fun heq =>
        hne (hunambiguous pair hpair pair' hpair' heq)
      exact ⟨fun heq => hjoined (vtableName_inj.mp heq), fun heq => hjoined (dropName_inj.mp heq)⟩

end Emitted

/-- The class `C` implements the trait `A_B` and the class `B_C` the trait `A`, each with a method
`f` of its own. -/
def joinedNames : Prepared where
  program := ⟨[
    .classDecl "C" [] none
      [.function false "f" [] [] (some .int) [.ret (some (.operator (.literal "1") []))]],
    .classDecl "B_C" [] none
      [.function false "f" [] [] (some .int) [.ret (some (.operator (.literal "2") []))]]]⟩
  traitObjectTables := [("A_B", [⟨"f", [], some .int⟩]), ("A", [⟨"f", [], some .int⟩])]
  implementations := [("A_B", "C"), ("A", "B_C")]

/-- Both pairs have the vtable of the first. -/
theorem not_dispatches_joinedNames :
    ¬ (emitted joinedNames).Dispatches [("A_B", "C"), ("A", "B_C")] := by
  rintro ⟨_, _, _, hnames⟩
  have hne := hnames ("A_B", "C") (by simp) ("A", "B_C") (by simp) (by decide)
  exact hne.1 (by decide)

end Neutron.Dyn
