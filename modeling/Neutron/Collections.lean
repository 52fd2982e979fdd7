import Mathlib.Data.Finset.Basic
import Mathlib.Data.Finset.Card
import Mathlib.Data.List.GetD
import Neutron.Transducer

/-!
# Sets, stacks and queues of the runtime

The `collections` functions keep a container as one string of the registry with a line for each item.
The operations that change a container build the new list of items and drop it, so a container that
was made empty stays empty. The results of a sequence of operations are those of a set, a stack or a
queue exactly when no operation asks for what an earlier one put in.
-/

namespace Neutron.Collections

/-- The strings of the registry. An id is drawn once and names the string put under it. -/
structure Strings where
  texts : List (List Char)

/-- `registry::NULL` -/
def null : ℕ := 0

/-- `registry::get_string(id).unwrap_or_default()` -/
def Strings.text (r : Strings) (id : ℕ) : List Char := if id = null then [] else r.texts.getD (id - 1) []

/-- `registry::put_string` -/
def Strings.putString (r : Strings) (s : List Char) : Strings × ℕ := (⟨r.texts ++ [s]⟩, r.texts.length + 1)

def splitItems (s : List Char) : List (List Char) := if s = [] then [] else s.splitOn '\n'

def joinItems (items : List (List Char)) : List Char := List.intercalate ['\n'] items

/-! ## Sets -/

local instance lawfulItem : LawfulBEq (List Char) := inferInstance

def setNew (r : Strings) : Strings × ℕ := r.putString []

/-- The list with the new item is discarded. -/
def setAdd (r : Strings) (set value : ℕ) : ℕ := if r.text value ∈ splitItems (r.text set) then 0 else 1

def setHas (r : Strings) (set value : ℕ) : ℕ := if r.text value ∈ splitItems (r.text set) then 1 else 0

/-- The list without the item is discarded. -/
def setRemove (r : Strings) (set value : ℕ) : ℕ :=
  let items := splitItems (r.text set)
  if (items.filter (· ≠ r.text value)).length < items.length then 1 else 0

/-- The count of every container. -/
def size (r : Strings) (id : ℕ) : ℕ := if r.text id = [] then 0 else ((r.text id).splitOn '\n').length

def setSize (r : Strings) (set : ℕ) : ℕ := size r set

def setUnion (r : Strings) (a b : ℕ) : Strings × ℕ :=
  let add (items : List (List Char)) (item : List Char) := if item ∈ items then items else items ++ [item]
  r.putString (joinItems ((splitItems (r.text b)).foldl add (splitItems (r.text a))))

def setIntersection (r : Strings) (a b : ℕ) : Strings × ℕ :=
  r.putString (joinItems ((splitItems (r.text a)).filter (· ∈ splitItems (r.text b))))

def setDifference (r : Strings) (a b : ℕ) : Strings × ℕ :=
  r.putString (joinItems ((splitItems (r.text a)).filter (· ∉ splitItems (r.text b))))

/-! ## Stacks and queues -/

/-- The list with the new item is discarded. -/
def put (_r : Strings) (_line _value : ℕ) : ℕ := 1

/-- The item at one end, under a new id. The rest of the list is discarded. -/
def take (atEnd : List (List Char) → Option (List Char)) (r : Strings) (line : ℕ) : Strings × ℕ :=
  match atEnd (splitItems (r.text line)) with
  | some item => r.putString item
  | none => (r, null)

def isEmpty (r : Strings) (line : ℕ) : ℕ := if r.text line = [] then 1 else 0

def stackNew (r : Strings) : Strings × ℕ := r.putString []
def stackPush : Strings → ℕ → ℕ → ℕ := put
def stackPop : Strings → ℕ → Strings × ℕ := take List.getLast?
def stackPeek : Strings → ℕ → Strings × ℕ := take List.getLast?
def stackSize : Strings → ℕ → ℕ := size
def stackIsEmpty : Strings → ℕ → ℕ := isEmpty

def queueNew (r : Strings) : Strings × ℕ := r.putString []
def queueEnqueue : Strings → ℕ → ℕ → ℕ := put
def queueDequeue : Strings → ℕ → Strings × ℕ := take List.head?
def queuePeek : Strings → ℕ → Strings × ℕ := take List.head?
def queueSize : Strings → ℕ → ℕ := size
def queueIsEmpty : Strings → ℕ → ℕ := isEmpty

/-! ## Sequences of operations -/

/-- What an operation answers. A set made by an operation is read off its string. -/
inductive Answer where
  | flag (b : ℕ)
  | count (n : ℕ)
  | item (text : Option (List Char))
  | made (items : Finset (List Char))

/-- An operation on sets, which are numbered in the order they are made. -/
inductive SetOp where
  | new
  | add (set : ℕ) (value : List Char)
  | has (set : ℕ) (value : List Char)
  | remove (set : ℕ) (value : List Char)
  | size (set : ℕ)
  | union (a b : ℕ)
  | intersection (a b : ℕ)
  | difference (a b : ℕ)

def represented (made : Strings × ℕ) : Finset (List Char) := (splitItems (made.1.text made.2)).toFinset

/-- The functions on the registry and the ids of the sets made so far. -/
def setStep (state : Strings × List ℕ) (op : SetOp) : (Strings × List ℕ) × Answer :=
  let id (set : ℕ) := state.2.getD set null
  let keep (made : Strings × ℕ) := ((made.1, state.2 ++ [made.2]), Answer.made (represented made))
  let ask (value : List Char) (f : Strings → ℕ → ℕ) :=
    let given := state.1.putString value
    ((given.1, state.2), Answer.flag (f given.1 given.2))
  match op with
  | .new => keep (setNew state.1)
  | .add set value => ask value fun r v => setAdd r (id set) v
  | .has set value => ask value fun r v => setHas r (id set) v
  | .remove set value => ask value fun r v => setRemove r (id set) v
  | .size set => (state, .count (setSize state.1 (id set)))
  | .union a b => keep (setUnion state.1 (id a) (id b))
  | .intersection a b => keep (setIntersection state.1 (id a) (id b))
  | .difference a b => keep (setDifference state.1 (id a) (id b))

/-- The same operations on mathematical sets. -/
def setSpec (sets : List (Finset (List Char))) (op : SetOp) : List (Finset (List Char)) × Answer :=
  let items (set : ℕ) := sets.getD set ∅
  let member (set : ℕ) (value : List Char) := if value ∈ items set then 1 else 0
  match op with
  | .new => (sets ++ [∅], .made ∅)
  | .add set value => (sets.modify set (insert value), .flag (1 - member set value))
  | .has set value => (sets, .flag (member set value))
  | .remove set value => (sets.modify set (·.erase value), .flag (member set value))
  | .size set => (sets, .count (items set).card)
  | .union a b => (sets ++ [items a ∪ items b], .made (items a ∪ items b))
  | .intersection a b => (sets ++ [items a ∩ items b], .made (items a ∩ items b))
  | .difference a b => (sets ++ [items a \ items b], .made (items a \ items b))

/-- The values added to each set so far. -/
def noteAdded (added : List (Finset (List Char))) : SetOp → List (Finset (List Char))
  | .add set value => added.modify set (insert value)
  | .new | .union _ _ | .intersection _ _ | .difference _ _ => added ++ [∅]
  | .has _ _ | .remove _ _ | .size _ => added

/-- The operation asks for nothing that was added. -/
def Unseen (added : List (Finset (List Char))) : SetOp → Prop
  | .new => True
  | .add set value | .has set value | .remove set value => value ∉ added.getD set ∅
  | .size set => added.getD set ∅ = ∅
  | .union a b => added.getD a ∅ ∪ added.getD b ∅ = ∅
  | .intersection a b => added.getD a ∅ ∩ added.getD b ∅ = ∅
  | .difference a b => added.getD a ∅ \ added.getD b ∅ = ∅

inductive LineOp where
  | put (value : List Char)
  | take
  | peek
  | size
  | isEmpty

def LineOp.IsPut : LineOp → Prop
  | .put _ => True
  | _ => False

/-- The functions of a stack or a queue. -/
structure Line where
  put : Strings → ℕ → ℕ → ℕ
  take : Strings → ℕ → Strings × ℕ
  peek : Strings → ℕ → Strings × ℕ
  size : Strings → ℕ → ℕ
  isEmpty : Strings → ℕ → ℕ

def stack : Line := ⟨stackPush, stackPop, stackPeek, stackSize, stackIsEmpty⟩

def queue : Line := ⟨queueEnqueue, queueDequeue, queuePeek, queueSize, queueIsEmpty⟩

def lineStep (line : Line) (state : Strings × ℕ) (op : LineOp) : (Strings × ℕ) × Answer :=
  let read (out : Strings × ℕ) :=
    ((out.1, state.2), Answer.item (if out.2 = null then none else some (out.1.text out.2)))
  match op with
  | .put value =>
    let given := state.1.putString value
    ((given.1, state.2), .flag (line.put given.1 state.2 given.2))
  | .take => read (line.take state.1 state.2)
  | .peek => read (line.peek state.1 state.2)
  | .size => (state, .count (line.size state.1 state.2))
  | .isEmpty => (state, .flag (line.isEmpty state.1 state.2))

/-- The same operations on a list whose items leave at one end. -/
def lineSpec (atEnd : List (List Char) → Option (List Char)) (rest : List (List Char) → List (List Char))
    (items : List (List Char)) : LineOp → List (List Char) × Answer
  | .put value => (items ++ [value], .flag 1)
  | .take => (rest items, .item (atEnd items))
  | .peek => (items, .item (atEnd items))
  | .size => (items, .count items.length)
  | .isEmpty => (items, .flag (if items = [] then 1 else 0))

/-- Last in, first out. -/
def stackSpec : List (List Char) → LineOp → List (List Char) × Answer := lineSpec List.getLast? List.dropLast

/-- First in, first out. -/
def queueSpec : List (List Char) → LineOp → List (List Char) × Answer := lineSpec List.head? List.tail

/-! ## Containers that stay empty -/

section Empty

variable {r : Strings} {id : ℕ}

/-- The id names an empty string. -/
def Empty (r : Strings) (id : ℕ) : Prop := id ≤ r.texts.length ∧ r.text id = []

theorem text_putString_old (s : List Char) (h : id ≤ r.texts.length) : (r.putString s).1.text id = r.text id := by
  unfold Strings.putString Strings.text
  by_cases hnull : id = null
  · rw [if_pos hnull, if_pos hnull]
  · have hlt : id - 1 < r.texts.length := by
      have hpos : 0 < id := Nat.pos_of_ne_zero hnull
      omega
    rw [if_neg hnull, if_neg hnull, List.getD_append _ _ _ _ hlt]

theorem text_putString_new (s : List Char) : (r.putString s).1.text (r.putString s).2 = s := by
  unfold Strings.putString Strings.text null
  rw [if_neg (Nat.succ_ne_zero _), Nat.add_sub_cancel, List.getD_append_right _ _ _ _ (Nat.le_refl _),
    Nat.sub_self]
  rfl

theorem Empty.putString (h : Empty r id) (s : List Char) : Empty (r.putString s).1 id := by
  refine ⟨?_, (text_putString_old s h.1).trans h.2⟩
  unfold Strings.putString
  rw [List.length_append]
  exact Nat.le_add_right_of_le h.1

theorem empty_new : Empty (r.putString []).1 (r.putString []).2 := by
  refine ⟨?_, text_putString_new []⟩
  unfold Strings.putString
  rw [List.length_append]
  exact Nat.le_refl _

theorem empty_null : Empty r null := ⟨Nat.zero_le _, rfl⟩

theorem Empty.splitItems (h : Empty r id) : splitItems (r.text id) = [] := by
  rw [h.2]
  rfl

theorem Empty.setAdd (h : Empty r id) (value : ℕ) : setAdd r id value = 1 := by
  rw [Collections.setAdd, h.splitItems, if_neg List.not_mem_nil]

theorem Empty.setHas (h : Empty r id) (value : ℕ) : setHas r id value = 0 := by
  rw [Collections.setHas, h.splitItems, if_neg List.not_mem_nil]

theorem Empty.setRemove (h : Empty r id) (value : ℕ) : setRemove r id value = 0 := by
  rw [Collections.setRemove, h.splitItems]
  rfl

theorem Empty.size (h : Empty r id) : size r id = 0 := by
  rw [Collections.size, if_pos h.2]

theorem Empty.isEmpty (h : Empty r id) : isEmpty r id = 1 := by
  rw [Collections.isEmpty, if_pos h.2]

theorem Empty.take {atEnd : List (List Char) → Option (List Char)} (hend : atEnd [] = none) (h : Empty r id) :
    take atEnd r id = (r, null) := by
  rw [Collections.take, h.splitItems, hend]

theorem Empty.setUnion {a b : ℕ} (ha : Empty r a) (hb : Empty r b) : setUnion r a b = r.putString [] := by
  rw [Collections.setUnion, ha.splitItems, hb.splitItems]
  rfl

theorem Empty.setIntersection {a : ℕ} (ha : Empty r a) (b : ℕ) : setIntersection r a b = r.putString [] := by
  rw [Collections.setIntersection, ha.splitItems]
  rfl

theorem Empty.setDifference {a : ℕ} (ha : Empty r a) (b : ℕ) : setDifference r a b = r.putString [] := by
  rw [Collections.setDifference, ha.splitItems]
  rfl

theorem represented_new : represented (r.putString []) = ∅ := by
  rw [represented, empty_new.splitItems]
  rfl

end Empty

/-! ## Sets -/

/-- Every set made so far has an empty string. -/
def AllEmpty (state : Strings × List ℕ) : Prop := ∀ id ∈ state.2, Empty state.1 id

section Sets

variable {state : Strings × List ℕ}

theorem AllEmpty.getD (h : AllEmpty state) (set : ℕ) : Empty state.1 (state.2.getD set null) := by
  by_cases hlt : set < state.2.length
  · rw [List.getD_eq_getElem _ _ hlt]
    exact h _ (List.getElem_mem hlt)
  · rw [List.getD_eq_default _ _ (Nat.le_of_not_lt hlt)]
    exact empty_null

theorem AllEmpty.given (h : AllEmpty state) (value : List Char) : AllEmpty ((state.1.putString value).1, state.2) :=
  fun id hid => (h id hid).putString value

theorem AllEmpty.made (h : AllEmpty state) :
    AllEmpty ((state.1.putString []).1, state.2 ++ [(state.1.putString []).2]) := by
  intro id hid
  rcases List.mem_append.mp hid with hid | hid
  · exact (h id hid).putString []
  · rw [List.mem_singleton.mp hid]
    exact empty_new

/-- What the functions answer while every string is empty. -/
theorem setStep_of_allEmpty (h : AllEmpty state) (op : SetOp) :
    AllEmpty (setStep state op).1 ∧ (setStep state op).2 = match op with
      | .new | .union _ _ | .intersection _ _ | .difference _ _ => .made ∅
      | .add _ _ => .flag 1
      | .has _ _ | .remove _ _ => .flag 0
      | .size _ => .count 0 := by
  cases op with
  | new => exact ⟨h.made, congrArg Answer.made represented_new⟩
  | add set value => exact ⟨h.given value, congrArg Answer.flag (((h.getD set).putString value).setAdd _)⟩
  | has set value => exact ⟨h.given value, congrArg Answer.flag (((h.getD set).putString value).setHas _)⟩
  | remove set value => exact ⟨h.given value, congrArg Answer.flag (((h.getD set).putString value).setRemove _)⟩
  | size set => exact ⟨h, congrArg Answer.count (h.getD set).size⟩
  | union a b =>
    simp only [setStep, (h.getD a).setUnion (h.getD b)]
    exact ⟨h.made, congrArg Answer.made represented_new⟩
  | intersection a b =>
    simp only [setStep, (h.getD a).setIntersection]
    exact ⟨h.made, congrArg Answer.made represented_new⟩
  | difference a b =>
    simp only [setStep, (h.getD a).setDifference]
    exact ⟨h.made, congrArg Answer.made represented_new⟩

theorem setAnswer_iff (h : AllEmpty state) (sets : List (Finset (List Char))) (op : SetOp) :
    (setStep state op).2 = (setSpec sets op).2 ↔ Unseen sets op := by
  rw [(setStep_of_allEmpty h op).2]
  cases op with
  | new => exact ⟨fun _ => trivial, fun _ => rfl⟩
  | add set value | has set value | remove set value =>
    simp only [setSpec, Unseen, Answer.flag.injEq]
    by_cases hmem : value ∈ sets.getD set ∅ <;> simp only [hmem, if_true, if_false] <;> decide
  | size set =>
    simp only [setSpec, Unseen, Answer.count.injEq]
    exact eq_comm.trans Finset.card_eq_zero
  | union a b => simp only [setSpec, Unseen, Answer.made.injEq, eq_comm]
  | intersection a b => simp only [setSpec, Unseen, Answer.made.injEq, eq_comm]
  | difference a b => simp only [setSpec, Unseen, Answer.made.injEq, eq_comm]

/-- An operation that asks for nothing that was added takes nothing out. -/
theorem setSpec_of_unseen {sets : List (Finset (List Char))} {op : SetOp} (h : Unseen sets op) :
    (setSpec sets op).1 = noteAdded sets op := by
  cases op with
  | new => rfl
  | add => rfl
  | has => rfl
  | size => rfl
  | remove set value =>
    change sets.modify set (·.erase value) = sets
    apply List.ext_getElem?
    intro i
    rw [List.getElem?_modify]
    by_cases hset : set = i
    · subst hset
      rw [Unseen, List.getD_eq_getElem?_getD] at h
      cases hitems : sets[set]? with
      | none => rfl
      | some items =>
        rw [hitems] at h
        simp only [Option.map_eq_map, Option.map_some, if_true]
        exact congrArg some (Finset.erase_eq_of_notMem h)
    · simp only [hset, if_false, id_map']
  | union a b => exact congrArg (fun items => sets ++ [items]) h
  | intersection a b => exact congrArg (fun items => sets ++ [items]) h
  | difference a b => exact congrArg (fun items => sets ++ [items]) h

end Sets

theorem sets_iff (r : Strings) (ops : List SetOp) :
    Transducer.outputs setStep (r, []) ops = Transducer.outputs setSpec [] ops
      ↔ Transducer.Along noteAdded Unseen [] ops := by
  have hstart : AllEmpty (r, []) := fun id hid => absurd hid List.not_mem_nil
  have hanswers := Transducer.outputs_eq_iff (I := AllEmpty) (fun _ op h => (setStep_of_allEmpty h op).1)
    (fun _ sets op h => setAnswer_iff h sets op) hstart [] ops
  exact hanswers.trans (Transducer.along_congr (fun sets op h => setSpec_of_unseen h) [] ops)

/-! ## Stacks and queues -/

/-- The functions of a container whose items leave at one end. -/
def endLine (atEnd : List (List Char) → Option (List Char)) : Line := ⟨put, take atEnd, take atEnd, size, isEmpty⟩

/-- A read of an empty container, or a put. -/
def ReadsEmpty (items : List (List Char)) (op : LineOp) : Prop := op.IsPut ∨ items = []

section Lines

variable {atEnd : List (List Char) → Option (List Char)} {rest : List (List Char) → List (List Char)}
  (hnil : atEnd [] = none) (hcons : ∀ items, items ≠ [] → atEnd items ≠ none) (hrest : rest [] = [])

include hnil

theorem lineStep_of_empty {state : Strings × ℕ} (h : Empty state.1 state.2) (op : LineOp) :
    Empty (lineStep (endLine atEnd) state op).1.1 (lineStep (endLine atEnd) state op).1.2
      ∧ (lineStep (endLine atEnd) state op).2 = match op with
        | .put _ => .flag 1
        | .take | .peek => .item none
        | .size => .count 0
        | .isEmpty => .flag 1 := by
  cases op with
  | put value => exact ⟨h.putString value, rfl⟩
  | take | peek =>
    simp only [lineStep, endLine, h.take hnil]
    exact ⟨h, rfl⟩
  | size => exact ⟨h, congrArg Answer.count h.size⟩
  | isEmpty => exact ⟨h, congrArg Answer.flag h.isEmpty⟩

include hcons

theorem lineAnswer_iff {state : Strings × ℕ} (h : Empty state.1 state.2) (items : List (List Char)) (op : LineOp) :
    (lineStep (endLine atEnd) state op).2 = (lineSpec atEnd rest items op).2 ↔ ReadsEmpty items op := by
  have hitem : none = atEnd items ↔ items = [] := by
    constructor
    · intro heq
      by_contra hne
      exact hcons items hne heq.symm
    · rintro rfl
      exact hnil.symm
  rw [(lineStep_of_empty hnil h op).2]
  cases op with
  | put value => exact ⟨fun _ => .inl trivial, fun _ => rfl⟩
  | take | peek => simp only [lineSpec, ReadsEmpty, LineOp.IsPut, false_or, Answer.item.injEq, hitem]
  | size =>
    simp only [lineSpec, ReadsEmpty, LineOp.IsPut, false_or, Answer.count.injEq]
    exact eq_comm.trans List.length_eq_zero_iff
  | isEmpty =>
    simp only [lineSpec, ReadsEmpty, LineOp.IsPut, false_or, Answer.flag.injEq]
    by_cases hitems : items = []
    · simp only [hitems, if_true]
    · simp only [hitems, if_false]
      decide

omit hnil hcons

theorem along_of_ne_nil {items : List (List Char)} (hne : items ≠ []) (ops : List LineOp) :
    Transducer.Along (fun items op => (lineSpec atEnd rest items op).1) ReadsEmpty items ops
      ↔ ∀ op ∈ ops, op.IsPut := by
  induction ops generalizing items with
  | nil => exact ⟨fun _ op hop => absurd hop List.not_mem_nil, fun _ => trivial⟩
  | cons op ops ih =>
    rw [Transducer.Along, List.forall_mem_cons]
    have hput : ReadsEmpty items op ↔ op.IsPut := ⟨fun h => h.resolve_right hne, .inl⟩
    rw [hput]
    refine and_congr_right fun h => ?_
    cases op with
    | put value => exact ih (List.append_ne_nil_of_right_ne_nil items (List.cons_ne_nil value []))
    | take => exact absurd h not_false
    | peek => exact absurd h not_false
    | size => exact absurd h not_false
    | isEmpty => exact absurd h not_false

include hrest

theorem along_of_nil (ops : List LineOp) :
    Transducer.Along (fun items op => (lineSpec atEnd rest items op).1) ReadsEmpty [] ops
      ↔ ops.Pairwise fun earlier later => earlier.IsPut → later.IsPut := by
  induction ops with
  | nil => exact ⟨fun _ => .nil, fun _ => trivial⟩
  | cons op ops ih =>
    rw [Transducer.Along, List.pairwise_cons]
    have hstart : ReadsEmpty [] op := .inr rfl
    have hread : ¬ op.IsPut → (lineSpec atEnd rest [] op).1 = [] → (ReadsEmpty [] op
        ∧ Transducer.Along (fun items op => (lineSpec atEnd rest items op).1) ReadsEmpty
          (lineSpec atEnd rest [] op).1 ops
      ↔ (∀ later ∈ ops, op.IsPut → later.IsPut)
        ∧ ops.Pairwise fun earlier later => earlier.IsPut → later.IsPut) := by
      intro hnot hkept
      rw [hkept, ih]
      exact ⟨fun h => ⟨fun _ _ hput => absurd hput hnot, h.2⟩, fun h => ⟨hstart, h.2⟩⟩
    cases op with
    | put value =>
      have hafter : Transducer.Along (fun items op => (lineSpec atEnd rest items op).1) ReadsEmpty [value] ops
          ↔ ∀ later ∈ ops, later.IsPut := along_of_ne_nil (List.cons_ne_nil value []) ops
      constructor
      · rintro ⟨-, hread⟩
        have hall := hafter.mp hread
        exact ⟨fun later hlater _ => hall later hlater,
          List.pairwise_of_forall_mem_list fun _ _ later hlater _ => hall later hlater⟩
      · rintro ⟨hall, -⟩
        exact ⟨hstart, hafter.mpr fun later hlater => hall later hlater trivial⟩
    | take => exact hread not_false hrest
    | peek => exact hread not_false rfl
    | size => exact hread not_false rfl
    | isEmpty => exact hread not_false rfl

include hnil hcons

theorem lines_iff (r : Strings) (ops : List LineOp) :
    Transducer.outputs (lineStep (endLine atEnd)) (r.putString []) ops
        = Transducer.outputs (lineSpec atEnd rest) [] ops
      ↔ ops.Pairwise fun earlier later => earlier.IsPut → later.IsPut := by
  have hempty : Empty (r.putString []).1 (r.putString []).2 := empty_new
  have hanswers : Transducer.outputs (lineStep (endLine atEnd)) (r.putString []) ops
        = Transducer.outputs (lineSpec atEnd rest) [] ops
      ↔ Transducer.Along (fun items op => (lineSpec atEnd rest items op).1) ReadsEmpty [] ops :=
    Transducer.outputs_eq_iff (I := fun state => Empty state.1 state.2)
      (fun _ op h => (lineStep_of_empty hnil h op).1)
      (fun _ items op h => lineAnswer_iff hnil hcons h items op) hempty [] ops
  exact hanswers.trans (along_of_nil hrest ops)

end Lines

/-- The results are those of sets, a stack and a queue exactly when nothing added to a set is added to
it again, asked for, removed, counted or put in another set, and nothing but puts follows a put. -/
theorem collections_answer_iff (r : Strings) (setOps : List SetOp) (stackOps queueOps : List LineOp) :
    (Transducer.outputs setStep (r, []) setOps = Transducer.outputs setSpec [] setOps
        ↔ Transducer.Along noteAdded Unseen [] setOps)
      ∧ (Transducer.outputs (lineStep stack) (stackNew r) stackOps = Transducer.outputs stackSpec [] stackOps
        ↔ stackOps.Pairwise fun earlier later => earlier.IsPut → later.IsPut)
      ∧ (Transducer.outputs (lineStep queue) (queueNew r) queueOps = Transducer.outputs queueSpec [] queueOps
        ↔ queueOps.Pairwise fun earlier later => earlier.IsPut → later.IsPut) := by
  refine ⟨sets_iff r setOps, lines_iff rfl ?_ rfl r stackOps, lines_iff rfl ?_ rfl r queueOps⟩
  · intro items hne heq
    exact hne (List.getLast?_eq_none_iff.mp heq)
  · intro items hne heq
    exact hne (List.head?_eq_none_iff.mp heq)

/-- A value that was added is not there. -/
theorem collections_forget :
    ¬ (Transducer.outputs setStep (⟨[]⟩, []) [.new, .add 0 ['a'], .has 0 ['a']]
        = Transducer.outputs setSpec [] [.new, .add 0 ['a'], .has 0 ['a']]) := by
  intro h
  have hanswers := (sets_iff ⟨[]⟩ [.new, .add 0 ['a'], .has 0 ['a']]).mp h
  exact hanswers.2.2.1 (by decide)

end Neutron.Collections
