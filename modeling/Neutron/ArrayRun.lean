import Neutron.ArrayDisjoint

/-!
# Runs of array operations

A run interleaves array operations with the creation and the drop of strings. The
program may drop a string it holds: one it created, or one a pop handed to it. Strings
held by the program are the loose strings of `Disjoint`.
-/

namespace Neutron

open Execution

-- comparing draws by evaluation would unfold the two's complement reading
attribute [local irreducible] Registry.drawn

inductive ArrayOp
  | newString (text : String)
  | stringDrop (id : Int)
  | arrayNew (elemSize : Int) (stringElements : Bool)
  | arrayPush (id elem : Int)
  | arraySet (id index elem : Int)
  | arrayPop (id : Int)
  | arrayDrop (id : Int)
  | arrayClone (levels : ℕ) (id : Int)
  | arraySlice (id start stop : Int)
  | arrayReverse (id : Int)
  | arrayRemoveAt (id index : Int)
  | arrayClear (id : Int)
  | arrayFill (val count elemSize : Int) (stringElements : Bool)
  | arraySort (id mode : Int)
  | sortBy (id : Int) (cmp : Int → Int → Int)
  | arrayShuffle (bytes : List UInt8) (id : Int)

/-- The registry and the strings the program holds. -/
structure Holding where
  reg : Registry
  held : List Int

namespace Holding

variable {h : Holding}

def start : Holding := ⟨Registry.empty, []⟩

def step (h : Holding) : ArrayOp → Holding
  | .newString text => ⟨(h.reg.putString text).1, (h.reg.putString text).2 :: h.held⟩
  | .stringDrop id => ⟨(h.reg.takeString id).1, h.held.erase id⟩
  | .arrayNew elemSize stringElements => ⟨(h.reg.arrayNew elemSize stringElements).1, h.held⟩
  | .arrayPush id elem => ⟨(h.reg.arrayPush id elem).1, h.held⟩
  | .arraySet id index elem => ⟨(h.reg.arraySet id index elem).1, h.held⟩
  | .arrayPop id => ⟨(h.reg.arrayPop id).1, h.reg.popped id ++ h.held⟩
  | .arrayDrop id => ⟨h.reg.arrayDrop id, h.held⟩
  | .arrayClone levels id => ⟨(Registry.arrayClone levels h.reg id).1, h.held⟩
  | .arraySlice id start stop => ⟨(h.reg.arraySlice id start stop).1, h.held⟩
  | .arrayReverse id => ⟨(h.reg.arrayReverse id).1, h.held⟩
  | .arrayRemoveAt id index => ⟨(h.reg.arrayRemoveAt id index).1, h.held⟩
  | .arrayClear id => ⟨(h.reg.arrayClear id).1, h.held⟩
  | .arrayFill val count elemSize stringElements =>
      ⟨(h.reg.arrayFill val count elemSize stringElements).1, h.held⟩
  | .arraySort id mode => ⟨(h.reg.arraySort id mode).1, h.held⟩
  | .sortBy id cmp => ⟨(h.reg.sortBy id cmp).1, h.held⟩
  | .arrayShuffle bytes id => ⟨(h.reg.arrayShuffle bytes id).1, h.held⟩

/-- What callers promise: a string is dropped by its holder, and a string array is filled
with a live string. -/
def Permitted (h : Holding) : ArrayOp → Prop
  | .stringDrop id => id ∈ h.held
  | .arrayFill val _ _ stringElements => stringElements = true → (h.reg.getString val).isSome
  | _ => True

/-- No call of `sort_by` is given a string array that has elements. -/
def Sortable (h : Holding) : ArrayOp → Prop
  | .sortBy id _ => h.reg.owned id = []
  | _ => True

instance (h : Holding) : ∀ op, Decidable (h.Permitted op)
  | .stringDrop _ => inferInstanceAs (Decidable (_ ∈ _))
  | .arrayFill .. => inferInstanceAs (Decidable (_ → _))
  | .newString _ | .arrayNew .. | .arrayPush .. | .arraySet .. | .arrayPop _ | .arrayDrop _ | .arrayClone ..
  | .arraySlice .. | .arrayReverse _ | .arrayRemoveAt .. | .arrayClear _ | .arraySort .. | .sortBy ..
  | .arrayShuffle .. => .isTrue trivial

instance (h : Holding) : ∀ op, Decidable (h.Sortable op)
  | .sortBy .. => inferInstanceAs (Decidable (_ = []))
  | .newString _ | .stringDrop _ | .arrayNew .. | .arrayPush .. | .arraySet .. | .arrayPop _ | .arrayDrop _
  | .arrayClone .. | .arraySlice .. | .arrayReverse _ | .arrayRemoveAt .. | .arrayClear _ | .arrayFill ..
  | .arraySort .. | .arrayShuffle .. => .isTrue trivial

theorem reaches_step (op : ArrayOp) : Registry.Reaches (fun _ => True) h.reg (h.step op).reg := by
  cases op with
  | newString text => exact Registry.Reaches.refl.insert _ rfl
  | stringDrop id => exact Registry.reaches_takeString (fun _ _ => trivial)
  | arrayNew elemSize stringElements => exact (Registry.allocates_arrayNew elemSize stringElements).reaches
  | arrayPush id elem => exact Registry.reaches_arrayPush id elem
  | arraySet id index elem => exact Registry.reaches_arraySet id index elem (fun _ _ => trivial)
  | arrayPop id => exact Registry.reaches_arrayPop id
  | arrayDrop id => exact Registry.reaches_arrayDrop (fun _ _ => trivial) (fun _ _ => trivial)
  | arrayClone levels id => exact (Registry.allocates_arrayClone levels h.reg id).reaches
  | arraySlice id start stop =>
    exact (Registry.allocates_copyArray Registry.reaches_keepRaw (Registry.sliceWindow start stop) id).reaches
  | arrayReverse id => exact (Registry.allocates_copyArray Registry.reaches_keepRaw List.reverse id).reaches
  | arrayRemoveAt id index => exact (Registry.allocates_copyArray Registry.reaches_keepRaw _ id).reaches
  | arrayClear id => exact (Registry.allocates_copyArray Registry.reaches_keepRaw (fun _ => []) id).reaches
  | arrayFill val count elemSize stringElements =>
    exact (Registry.allocates_arrayFill val count elemSize stringElements).reaches
  | arraySort id mode => exact (Registry.allocates_arraySort id mode).reaches
  | sortBy id cmp => exact Registry.reaches_sortBy id cmp
  | arrayShuffle bytes id => exact (Registry.allocates_arrayShuffle bytes id).reaches

/-- One operation moves each string it touches once. -/
theorem step_disjoint (op : ArrayOp) (hd : h.reg.Disjoint h.held) (hp : h.Permitted op)
    (hs : h.Sortable op) (hi : (h.step op).reg.issued < 2 ^ 64) :
    (h.step op).reg.Disjoint (h.step op).held := by
  cases op with
  | newString text => exact hd.putString hi text
  | stringDrop id => exact (hd.perm (List.perm_cons_erase hp).symm).takeString
  | arrayNew elemSize stringElements => exact hd.arrayNew elemSize stringElements hi
  | arrayPush id elem => exact hd.arrayPush id elem hi
  | arraySet id index elem => exact hd.arraySet id index elem hi
  | arrayPop id => exact hd.arrayPop id
  | arrayDrop id => exact hd.arrayDrop id
  | arrayClone levels id => exact hd.arrayClone levels id hi
  | arraySlice id start stop => exact hd.selected Registry.mem_of_mem_sliceWindow id hi
  | arrayReverse id => exact hd.selected (fun l e he => List.mem_reverse.mp he) id hi
  | arrayRemoveAt id index => exact hd.arrayRemoveAt id index hi
  | arrayClear id => exact hd.selected (fun l e he => absurd he List.not_mem_nil) id hi
  | arrayFill val count elemSize stringElements =>
    refine hd.arrayFill count elemSize (fun hstr => ?_) hi
    obtain ⟨text, htext⟩ := Option.isSome_iff_exists.mp (hp hstr)
    exact ⟨text, Registry.lookup_of_getString htext⟩
  | arraySort id mode => exact hd.arraySort id mode hi
  | sortBy id cmp => exact hd.sortBy hs cmp hi
  | arrayShuffle bytes id => exact hd.arrayShuffle bytes id hi

theorem start_disjoint : start.reg.Disjoint start.held := by
  have hzero (x : Int) : Registry.empty.owners x = 0 := by
    rw [Registry.owners, Registry.total]
    exact Finset.sum_eq_zero (fun i _ => rfl)
  refine ⟨Registry.balanced_empty, by decide, fun x => ?_, fun x hx => ?_⟩
  · exact (congrArg (· + [].count x) (hzero x)).le.trans (by simp)
  · change 0 < Registry.empty.owners x + [].count x at hx
    rw [hzero x] at hx
    simp at hx

end Holding

/-- Along every run of array operations in which no `sort_by` is given a string array
with elements, and in which fewer than `2 ^ 64` handles were issued, string arrays own
live strings and no string is owned twice. -/
theorem string_arrays_own_separate_elements (ops : List ArrayOp)
    (hrun : Allowed Holding.step (fun h op => h.Permitted op ∧ h.Sortable op) Holding.start ops) :
    let h := execute Holding.step Holding.start ops
    h.reg.issued < 2 ^ 64 → h.reg.SeparateElements := by
  intro h hi
  have hinv : h.reg.issued < 2 ^ 64 → h.reg.Disjoint h.held :=
    hrun.invariant (I := fun h => h.reg.issued < 2 ^ 64 → h.reg.Disjoint h.held)
      (fun h op hd hop hi =>
        Holding.step_disjoint op (hd ((Holding.reaches_step op).issued_le.trans_lt hi)) hop.1 hop.2 hi)
      (fun _ => Holding.start_disjoint)
  exact (hinv hi).separateElements

/-- A string array with one element, its sorted copy, and the drop of the first. -/
def sortAndDrop : List ArrayOp :=
  [.newString "a", .arrayNew 8 true, .arrayPush 2 1, .stringDrop 1, .arraySort 2 2, .arrayDrop 2]

theorem string_arrays_own_separate_elements_of_sort :
    let h := execute Holding.step Holding.start sortAndDrop
    h.reg.lookup 5 = some (.array ⟨8, true, [4]⟩) ∧ ∃ s, h.reg.lookup 4 = some (.string s) := by
  intro h
  have hrun : Allowed Holding.step (fun h op => h.Permitted op ∧ h.Sortable op) Holding.start sortAndDrop := by
    decide +kernel
  have hl : h.reg.lookup 5 = some (.array ⟨8, true, [4]⟩) := by decide +kernel
  have hsep := string_arrays_own_separate_elements sortAndDrop hrun (by decide +kernel)
  exact ⟨hl, hsep.live 5 _ hl rfl 4 (by simp)⟩

/-- `sort_by` makes the copy it returns share the strings of its source. -/
theorem sortBy_shares_elements :
    ¬ ∀ ops : List ArrayOp, Allowed Holding.step Holding.Permitted Holding.start ops →
      (execute Holding.step Holding.start ops).reg.SeparateElements := by
  intro hall
  have hsep := hall [.newString "a", .arrayNew 8 true, .arrayPush 2 1, .sortBy 2 (fun _ _ => 1)]
    (by decide)
  have h := hsep.separate 2 ⟨8, true, [3]⟩ 0 5 ⟨8, true, [3]⟩ 0 3 (by decide +kernel) rfl rfl
    (by decide +kernel) rfl rfl
  exact absurd h.1 (by decide)

end Neutron
