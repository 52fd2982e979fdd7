import Mathlib.Data.List.MinMax
import Mathlib.Data.Prod.Lex
import Neutron.IntegerText
import Neutron.PackageResolve

/-!
# Picking a version

`best_match` of the package manager. A version is read into three numbers, a component that is no number counting
as zero, and compared by the first difference. A requirement is a list of comparisons; the greatest listed version
that meets all of them is chosen.
-/

namespace Neutron.Pkg

/-! ### The search -/

/-- One turn of the loop of `best_match`; `none` when a comparison throws. -/
def bestStep (spec : Text) (best : Option Text) (version : Text) : Option (Option Text) :=
  let v := parseVersion version
  if v.isEmpty then some best
  else
    match satisfies v spec with
    | none => none
    | some false => some best
    | some true =>
      match best with
      | none => some (some v)
      | some b => (compareVersions v b).map fun d => if 0 < d then some v else some b

def bestMatch (versions : List Text) (spec : Text) : Option (Except Text Text) :=
  (versions.foldlM (bestStep spec) none).map fun best =>
    match best with
    | some b => .ok b
    | none => .error ("semver: no version satisfies '".toList ++ spec ++ ['\''])

/-! ### What is meant -/

/-- The three numbers of a version, ordered by the first difference. -/
def parts (v : Text) : ℤ ×ₗ ℤ ×ₗ ℤ :=
  toLex (versionComponent v 0, toLex (versionComponent v 1, versionComponent v 2))

inductive Relation where
  | atLeast
  | above
  | atMost
  | below
  | exactly
  deriving Repr, DecidableEq

def Relation.holds {α : Type*} [LinearOrder α] : Relation → α → α → Prop
  | .atLeast, v, target => target ≤ v
  | .above, v, target => target < v
  | .atMost, v, target => v ≤ target
  | .below, v, target => v < target
  | .exactly, v, target => v = target

/-- The comparison a part of a requirement writes; an empty part writes none. -/
def comparisonOf : Text → Option (Relation × Text)
  | [] => none
  | '>' :: '=' :: target => some (.atLeast, target)
  | '>' :: target => some (.above, target)
  | '<' :: '=' :: target => some (.atMost, target)
  | '<' :: target => some (.below, target)
  | target => some (.exactly, target)

def requirements (spec : Text) : List Text := (split (trim spec) ',').map trim

/-- The conjunction of the comparisons written in a requirement. -/
def Meets (v spec : Text) : Prop :=
  ∀ part ∈ requirements spec, ∀ relation target, comparisonOf part = some (relation, target) →
    parseVersion target ≠ [] ∧ relation.holds (parts v) (parts (parseVersion target))

def NonNegative (v : Text) : Prop := ∀ i, 0 ≤ versionComponent v i

/-- Every component is a number that is not negative. -/
def Numbered (s : Text) : Prop := ∀ piece ∈ split (trim s) '.', ∃ n, parseI64 (trim piece) = some n ∧ 0 ≤ n

/-- Every comparison is against a version made of numbers, or against a text that is rejected. -/
def NumberedSpec (spec : Text) : Prop :=
  ∀ part ∈ requirements spec, ∀ relation target, comparisonOf part = some (relation, target) →
    parseVersion target ≠ [] → Numbered target

instance (s : Text) : Decidable (Numbered s) :=
  decidable_of_iff (∀ piece ∈ split (trim s) '.', (parseI64 (trim piece)).any (0 ≤ ·) = true) (by
    simp only [Numbered, Option.any_eq_true, decide_eq_true_iff])

instance (spec : Text) : Decidable (NumberedSpec spec) :=
  decidable_of_iff (∀ part ∈ requirements spec, ∀ written ∈ comparisonOf part,
      parseVersion written.2 ≠ [] → Numbered written.2) (by
    simp only [NumberedSpec, Option.mem_def, Prod.forall])

/-- A text that is read as a version without negative components. -/
def Accepted (s : Text) : Prop := parseVersion s ≠ [] ∧ NonNegative (parseVersion s)

/-- The version `a` is not greater than `b`, as `compare_versions` has it. -/
def VersionLe (a b : Text) : Prop := ∃ d ≤ 0, compareVersions a b = some d

/-! ### Numbers and their texts -/

theorem digits_eq (s : Text) (acc : ℕ) :
    digits acc s = if s.all Char.isDigit then some (Nat.ofDigitChars 10 s acc) else none := by
  induction s generalizing acc with
  | nil => rfl
  | cons c s ih =>
      by_cases hc : c.isDigit = true
      · rw [digits, if_pos hc, ih, List.all_cons, hc, Bool.true_and, Nat.ofDigitChars_cons]
      · rw [digits, if_neg hc, List.all_cons, Bool.eq_false_iff.mpr hc, Bool.false_and, if_neg Bool.false_ne_true]

theorem digits_toDigits (n : ℕ) : digits 0 (Nat.toDigits 10 n) = some n := by
  have hall : (Nat.toDigits 10 n).all Char.isDigit = true :=
    List.all_eq_true.mpr fun c hc => RuntimeText.isDigit_of_mem_digits hc
  rw [digits_eq, if_pos hall, Nat.ofDigitChars_ten_toDigits]

theorem i64ToStr_eq (i : ℤ) : i64ToStr i = RuntimeText.formatInt i := RuntimeText.formatInt_eq_toString i

/-- The number a text spells, before its range is checked. -/
def signed : Text → Option ℤ
  | [] => none
  | '-' :: s => if s.isEmpty then none else (digits 0 s).map fun n : ℕ => -(n : ℤ)
  | '+' :: s => if s.isEmpty then none else (digits 0 s).map fun n : ℕ => (n : ℤ)
  | s => (digits 0 s).map fun n : ℕ => (n : ℤ)

theorem filter_eq_bind (o : Option ℤ) (p : ℤ → Bool) :
    (o.bind fun i => if p i then some i else none) = o.filter p := by
  cases o with
  | none => rfl
  | some i => rw [Option.bind_some, Option.filter_some]

variable {s : Text}

theorem signed_unsigned (hnil : s = [] → False) (hminus : ∀ t, s = '-' :: t → False)
    (hplus : ∀ t, s = '+' :: t → False) : signed s = (digits 0 s).map fun n : ℕ => (n : ℤ) := by
  unfold signed
  split
  · exact absurd rfl hnil
  · exact absurd rfl (hminus _)
  · exact absurd rfl (hplus _)
  · rfl

theorem parseI64_eq (s : Text) : parseI64 s = (signed s).filter inI64 := by
  rw [← filter_eq_bind]
  unfold parseI64
  split
  · rfl
  · rename_i s
    rw [signed]
    by_cases hs : s.isEmpty = true
    · simp only [if_pos hs]
      rfl
    · simp only [if_neg hs]
      cases digits 0 s <;> rfl
  · rename_i s
    rw [signed]
    by_cases hs : s.isEmpty = true
    · simp only [if_pos hs]
      rfl
    · simp only [if_neg hs]
      cases digits 0 s <;> rfl
  · rename_i hnil hminus hplus
    rw [signed_unsigned hnil hminus hplus]
    cases digits 0 s <;> rfl

theorem signed_natural {n : ℕ} (hdigits : ∀ c ∈ s, c.isDigit = true) (hs : s ≠ [])
    (hn : digits 0 s = some n) : signed s = some (n : ℤ) := by
  rw [signed_unsigned hs, hn, Option.map_some]
  · rintro t rfl
    exact absurd (hdigits '-' List.mem_cons_self) (by decide)
  · rintro t rfl
    exact absurd (hdigits '+' List.mem_cons_self) (by decide)

theorem signed_i64ToStr (i : ℤ) : signed (i64ToStr i) = some i := by
  rw [i64ToStr_eq, RuntimeText.formatInt]
  by_cases hi : i < 0
  · have hvalue : -((i.natAbs : ℕ) : ℤ) = i := by omega
    have hne : (Nat.toDigits 10 i.natAbs).isEmpty = false := by
      rw [List.isEmpty_eq_false_iff]
      exact Nat.toDigits_ne_nil
    rw [if_pos hi, signed, hne, if_neg Bool.false_ne_true, digits_toDigits, Option.map_some, hvalue]
  · have hvalue : ((i.natAbs : ℕ) : ℤ) = i := by omega
    rw [if_neg hi, signed_natural (fun c hc => RuntimeText.isDigit_of_mem_digits hc) Nat.toDigits_ne_nil
      (digits_toDigits _), hvalue]

theorem parseI64_i64ToStr {i : ℤ} (h : inI64 i = true) : parseI64 (i64ToStr i) = some i := by
  rw [parseI64_eq, signed_i64ToStr, Option.filter_some, if_pos h]

theorem inI64_of_parseI64 {i : ℤ} (h : parseI64 s = some i) : inI64 i = true := by
  rw [parseI64_eq] at h
  exact (Option.filter_eq_some_iff.mp h).2

theorem inI64_parseIntComponent (s : Text) : inI64 (parseIntComponent s) = true := by
  rw [parseIntComponent]
  cases h : parseI64 (trim s) with
  | none => rfl
  | some i => exact inI64_of_parseI64 h

/-- No sign and no digit is a space or one of the separators. -/
theorem plain_of_mem_i64ToStr {i : ℤ} {c : Char} (hc : c ∈ i64ToStr i) : isSpace c = false ∧ c ≠ '.' ∧ c ≠ ',' := by
  have hplain : c = '-' ∨ c.isDigit = true := by
    rw [i64ToStr_eq, RuntimeText.formatInt] at hc
    split at hc
    · rcases List.mem_cons.mp hc with rfl | hc
      · exact .inl rfl
      · exact .inr (RuntimeText.isDigit_of_mem_digits hc)
    · exact .inr (RuntimeText.isDigit_of_mem_digits hc)
  rcases hplain with rfl | hdigit
  · decide
  · have hrange : 48 ≤ c.toNat ∧ c.toNat ≤ 57 := by
      simpa [Char.isDigit, UInt32.le_iff_toNat_le] using hdigit
    have hne (d : Char) (hd : ¬ (48 ≤ d.toNat ∧ d.toNat ≤ 57)) : c ≠ d := by
      rintro rfl
      exact hd hrange
    refine ⟨?_, hne _ (by decide), hne _ (by decide)⟩
    simp only [isSpace]
    simp
    omega

theorem trim_eq_self (h : ∀ c ∈ s, isSpace c = false) : trim s = s := by
  have hdrop (t : Text) (ht : ∀ c ∈ t, isSpace c = false) : t.dropWhile isSpace = t := by
    cases t with
    | nil => rfl
    | cons c t => rw [List.dropWhile_cons, ht c List.mem_cons_self, if_neg Bool.false_ne_true]
  rw [trim, hdrop s h, hdrop s.reverse (fun c hc => h c (List.mem_reverse.mp hc)), List.reverse_reverse]

theorem parseIntComponent_i64ToStr {i : ℤ} (h : inI64 i = true) : parseIntComponent (i64ToStr i) = i := by
  rw [parseIntComponent, trim_eq_self (fun c hc => (plain_of_mem_i64ToStr hc).1), parseI64_i64ToStr h]
  rfl

/-! ### The normal form -/

/-- Component `i` of a text, as `parse_version` reads it. -/
def component (s : Text) (i : ℕ) : ℤ := (((split (trim s) '.')[i]?).map parseIntComponent).getD 0

theorem inI64_component (s : Text) (i : ℕ) : inI64 (component s i) = true := by
  rw [component]
  cases (split (trim s) '.')[i]? with
  | none => rfl
  | some piece => exact inI64_parseIntComponent piece

def render (a b c : ℤ) : Text := i64ToStr a ++ ['.'] ++ i64ToStr b ++ ['.'] ++ i64ToStr c

theorem split_render (a b c : ℤ) : split (render a b c) '.' = [i64ToStr a, i64ToStr b, i64ToStr c] := by
  have hjoin : render a b c = List.intercalate ['.'] [i64ToStr a, i64ToStr b, i64ToStr c] := by
    simp [render, List.intercalate]
  rw [split, hjoin]
  apply List.splitOn_intercalate
  · intro piece hpiece hdot
    simp only [List.mem_cons, List.not_mem_nil, or_false] at hpiece
    rcases hpiece with rfl | rfl | rfl <;> exact (plain_of_mem_i64ToStr hdot).2.1 rfl
  · exact List.cons_ne_nil _ _

/-- A text is rejected, or it is rewritten to its three components. -/
theorem parseVersion_cases (s : Text) :
    parseVersion s = [] ∨ parseVersion s = render (component s 0) (component s 1) (component s 2) := by
  unfold parseVersion
  by_cases hempty : (trim s).isEmpty = true
  · exact .inl (if_pos hempty)
  · by_cases hcount : (decide ((split (trim s) '.').length < 1) || decide (3 < (split (trim s) '.').length)) = true
    · exact .inl (by simp only [if_neg hempty, hcount, if_true])
    · exact .inr (by simp only [if_neg hempty, hcount]; rfl)

theorem versionComponent_render {a b c : ℤ} (ha : inI64 a = true) (hb : inI64 b = true) (hc : inI64 c = true) :
    versionComponent (render a b c) 0 = a ∧ versionComponent (render a b c) 1 = b ∧
      versionComponent (render a b c) 2 = c := by
  simp only [versionComponent, split_render]
  exact ⟨parseIntComponent_i64ToStr ha, parseIntComponent_i64ToStr hb, parseIntComponent_i64ToStr hc⟩

theorem parts_parseVersion (h : parseVersion s ≠ []) :
    parts (parseVersion s) = toLex (component s 0, toLex (component s 1, component s 2)) := by
  rcases parseVersion_cases s with hnil | hrender
  · exact absurd hnil h
  · obtain ⟨h0, h1, h2⟩ :=
      versionComponent_render (inI64_component s 0) (inI64_component s 1) (inI64_component s 2)
    rw [parts, hrender, h0, h1, h2]

/-- Two normal forms with the same numbers are the same text. -/
theorem parseVersion_eq_of_parts {s t : Text} (hs : parseVersion s ≠ []) (ht : parseVersion t ≠ [])
    (h : parts (parseVersion s) = parts (parseVersion t)) : parseVersion s = parseVersion t := by
  rw [parts_parseVersion hs, parts_parseVersion ht] at h
  have h0 := congrArg (fun p => (ofLex p).1) h
  have h1 := congrArg (fun p => (ofLex (ofLex p).2).1) h
  have h2 := congrArg (fun p => (ofLex (ofLex p).2).2) h
  simp only [ofLex_toLex] at h0 h1 h2
  rw [(parseVersion_cases s).resolve_left hs, (parseVersion_cases t).resolve_left ht, h0, h1, h2]

/-! ### Comparing -/

theorem inI64_iff (i : ℤ) : inI64 i = true ↔ -2 ^ 63 ≤ i ∧ i < 2 ^ 63 := by
  rw [inI64, Bool.and_eq_true, decide_eq_true_iff, decide_eq_true_iff]

theorem inI64_versionComponent (v : Text) (i : ℕ) : inI64 (versionComponent v i) = true := by
  rw [versionComponent]
  cases (split v '.')[i]? with
  | none => rfl
  | some piece => exact inI64_parseIntComponent piece

/-- The difference of two numbers that are not negative stays in range. -/
theorem checkedSub_nonNegative {x y : ℤ} (hx : inI64 x = true) (hy : inI64 y = true) (hx0 : 0 ≤ x) (hy0 : 0 ≤ y) :
    checkedSub x y = some (x - y) := by
  rw [inI64_iff] at hx hy
  have hd : inI64 (x - y) = true := (inI64_iff _).mpr ⟨by omega, by omega⟩
  rw [checkedSub, if_pos hd]

theorem compareVersions_spec {a b : Text} (ha : NonNegative a) (hb : NonNegative b) :
    ∃ d, compareVersions a b = some d ∧ (0 < d ↔ parts b < parts a) ∧ (d < 0 ↔ parts a < parts b) ∧
      (d = 0 ↔ parts a = parts b) := by
  have hsub (i : ℕ) := checkedSub_nonNegative (inI64_versionComponent a i) (inI64_versionComponent b i) (ha i) (hb i)
  simp only [parts, Prod.Lex.toLex_lt_toLex, EmbeddingLike.apply_eq_iff_eq, Prod.mk.injEq]
  by_cases h0 : versionComponent a 0 = versionComponent b 0
  · by_cases h1 : versionComponent a 1 = versionComponent b 1
    · refine ⟨versionComponent a 2 - versionComponent b 2, ?_, ?_⟩
      · simp only [compareVersions, h0, h1, ne_eq, not_true_eq_false, if_false]
        exact hsub 2
      · omega
    · refine ⟨versionComponent a 1 - versionComponent b 1, ?_, ?_⟩
      · simp only [compareVersions, h0, ne_eq, not_true_eq_false, if_false, h1, not_false_eq_true, if_true]
        exact hsub 1
      · omega
  · refine ⟨versionComponent a 0 - versionComponent b 0, ?_, ?_⟩
    · simp only [compareVersions, ne_eq, h0, not_false_eq_true, if_true]
      exact hsub 0
    · omega

theorem versionLe_iff {a b : Text} (ha : NonNegative a) (hb : NonNegative b) : VersionLe a b ↔ parts a ≤ parts b := by
  obtain ⟨d, hd, hpos, -, -⟩ := compareVersions_spec ha hb
  rw [← not_lt, ← hpos, VersionLe]
  constructor
  · rintro ⟨e, he, hcompare⟩
    rw [hd] at hcompare
    cases hcompare
    omega
  · intro hle
    exact ⟨d, by omega, hd⟩

/-! ### Requirements -/

/-- How `single_satisfies` tests the result of a comparison. -/
def Relation.accepts : Relation → ℤ → Bool
  | .atLeast, d => 0 ≤ d
  | .above, d => 0 < d
  | .atMost, d => d ≤ 0
  | .below, d => d < 0
  | .exactly, d => d = 0

theorem Relation.accepts_iff {α : Type*} [LinearOrder α] {v target : α} {d : ℤ} (relation : Relation)
    (hpos : 0 < d ↔ target < v) (hneg : d < 0 ↔ v < target) (hzero : d = 0 ↔ v = target) :
    relation.accepts d = true ↔ relation.holds v target := by
  cases relation with
  | atLeast => rw [accepts, holds, decide_eq_true_iff, ← not_lt, ← not_lt, hneg]
  | above => rw [accepts, holds, decide_eq_true_iff, hpos]
  | atMost => rw [accepts, holds, decide_eq_true_iff, ← not_lt, ← not_lt, hpos]
  | below => rw [accepts, holds, decide_eq_true_iff, hneg]
  | exactly => rw [accepts, holds, decide_eq_true_iff, hzero]

theorem singleSatisfies_eq (v part : Text) :
    singleSatisfies v part = match comparisonOf part with
      | none => some true
      | some (relation, target) => comparison v target relation.accepts := by
  unfold singleSatisfies
  split
  · rfl
  · rfl
  · rename_i h
    rw [comparisonOf]
    · rfl
    · exact h
  · rfl
  · rename_i h
    rw [comparisonOf]
    · rfl
    · exact h
  · rename_i h0 h1 h2 h3 h4
    rw [comparisonOf]
    · rfl
    · exact h0
    · exact h1
    · exact h2
    · exact h3
    · exact h4

/-- What a version and the target of a comparison have to do with each other. -/
def Compares (v : Text) (relation : Relation) (target : Text) : Prop :=
  parseVersion target ≠ [] ∧ relation.holds (parts v) (parts (parseVersion target))

theorem comparison_spec {v target : Text} (hv : NonNegative v)
    (ht : parseVersion target ≠ [] → NonNegative (parseVersion target)) (relation : Relation) :
    ∃ met, comparison v target relation.accepts = some met ∧ (met = true ↔ Compares v relation target) := by
  by_cases hempty : parseVersion target = []
  · refine ⟨false, ?_, fun h => (Bool.false_ne_true h).elim, fun h => absurd hempty h.1⟩
    rw [comparison, hempty]
    rfl
  · obtain ⟨d, hd, hpos, hneg, hzero⟩ := compareVersions_spec hv (ht hempty)
    have hcons : (parseVersion target).isEmpty = false := List.isEmpty_eq_false_iff.mpr hempty
    refine ⟨relation.accepts d, ?_, ?_⟩
    · simp only [comparison, hcons, Bool.false_eq_true, if_false, hd, Option.map_some]
    · rw [relation.accepts_iff hpos hneg hzero]
      exact ⟨fun h => ⟨hempty, h⟩, fun h => h.2⟩

theorem nonNegative_parseVersion (h : Numbered s) : NonNegative (parseVersion s) := by
  have hpiece (i : ℕ) : 0 ≤ component s i := by
    rw [component]
    cases hi : (split (trim s) '.')[i]? with
    | none => exact le_rfl
    | some piece =>
        obtain ⟨n, hn, hn0⟩ := h piece (List.mem_of_getElem? hi)
        rw [Option.map_some, Option.getD_some, parseIntComponent, hn]
        exact hn0
  intro i
  rcases parseVersion_cases s with hnil | hrender
  · rw [hnil]
    match i with
    | 0 => decide
    | i + 1 => exact le_rfl
  · obtain ⟨h0, h1, h2⟩ :=
      versionComponent_render (inI64_component s 0) (inI64_component s 1) (inI64_component s 2)
    rw [hrender]
    match i with
    | 0 =>
        rw [h0]
        exact hpiece 0
    | 1 =>
        rw [h1]
        exact hpiece 1
    | 2 =>
        rw [h2]
        exact hpiece 2
    | i + 3 =>
        rw [versionComponent, split_render]
        exact le_rfl

variable {spec : Text}

theorem singleSatisfies_spec {v part : Text} (hv : NonNegative v)
    (ht : ∀ relation target, comparisonOf part = some (relation, target) → parseVersion target ≠ [] →
      Numbered target) :
    ∃ met, singleSatisfies v part = some met ∧
      (met = true ↔ ∀ relation target, comparisonOf part = some (relation, target) → Compares v relation target) := by
  rw [singleSatisfies_eq]
  cases hpart : comparisonOf part with
  | none => exact ⟨true, rfl, fun _ _ _ h => (nomatch h), fun _ => rfl⟩
  | some written =>
      obtain ⟨relation, target⟩ := written
      obtain ⟨met, hmet, hiff⟩ :=
        comparison_spec hv (fun hne => nonNegative_parseVersion (ht relation target hpart hne)) relation
      refine ⟨met, hmet, hiff.trans ⟨fun h r t heq => ?_, fun h => h relation target rfl⟩⟩
      cases heq
      exact h

/-- The loop over the parts of a requirement. -/
theorem foldlM_satisfies {v : Text} {meets : Text → Prop} (pieces : List Text)
    (h : ∀ piece ∈ pieces, ∃ met, singleSatisfies v (trim piece) = some met ∧ (met = true ↔ meets (trim piece)))
    (before : Bool) :
    ∃ met, pieces.foldlM (fun met piece => if met then singleSatisfies v (trim piece) else some false) before =
      some met ∧ (met = true ↔ before = true ∧ ∀ part ∈ pieces.map trim, meets part) := by
  induction pieces generalizing before with
  | nil => exact ⟨before, rfl, by simp⟩
  | cons piece pieces ih =>
      have htail := ih (fun p hp => h p (List.mem_cons_of_mem _ hp))
      rw [List.foldlM_cons]
      cases before with
      | false =>
          obtain ⟨met, hmet, hiff⟩ := htail false
          exact ⟨met, hmet, hiff.trans (by simp)⟩
      | true =>
          obtain ⟨first, hfirst, hmeets⟩ := h piece List.mem_cons_self
          obtain ⟨met, hmet, hiff⟩ := htail first
          refine ⟨met, ?_, ?_⟩
          · rw [if_pos rfl, hfirst]
            exact hmet
          · rw [hiff, hmeets, List.map_cons, List.forall_mem_cons]
            simp

/-- On numbers, `satisfies` is the conjunction of the comparisons, and never throws. -/
theorem satisfies_spec {v : Text} (hv : NonNegative v) (hspec : NumberedSpec spec) :
    ∃ met, satisfies v spec = some met ∧ (met = true ↔ Meets v spec) := by
  have hpieces : ∀ piece ∈ split (trim spec) ',', ∃ met, singleSatisfies v (trim piece) = some met ∧
      (met = true ↔ ∀ relation target, comparisonOf (trim piece) = some (relation, target) →
        Compares v relation target) :=
    fun piece hpiece => singleSatisfies_spec hv (hspec _ (List.mem_map_of_mem hpiece))
  obtain ⟨met, hmet, hiff⟩ := @foldlM_satisfies v (fun part => ∀ relation target,
    comparisonOf part = some (relation, target) → Compares v relation target) _ hpieces true
  exact ⟨met, hmet, hiff.trans ⟨fun h => h.2, fun h => ⟨rfl, h⟩⟩⟩

/-! ### The search -/

/-- What is known of the best version once some texts have been seen. -/
def Best (spec : Text) (seen : List Text) : Option Text → Prop
  | none => ∀ s ∈ seen, parseVersion s ≠ [] → ¬ Meets (parseVersion s) spec
  | some b => (∃ s ∈ seen, parseVersion s ≠ [] ∧ parseVersion s = b) ∧ Meets b spec ∧
      ∀ s ∈ seen, parseVersion s ≠ [] → Meets (parseVersion s) spec → parts (parseVersion s) ≤ parts b

variable {seen : List Text} {best : Option Text}

theorem Best.skip (h : Best spec seen best)
    (hs : parseVersion s ≠ [] → ¬ Meets (parseVersion s) spec) : Best spec (seen ++ [s]) best := by
  cases best with
  | none =>
      intro t ht
      rcases List.mem_append.mp ht with ht | ht
      · exact h t ht
      · rw [List.mem_singleton.mp ht]
        exact hs
  | some b =>
      obtain ⟨⟨t, ht, hb⟩, hmeets, hgreatest⟩ := h
      refine ⟨⟨t, List.mem_append_left _ ht, hb⟩, hmeets, fun u hu hne hu' => ?_⟩
      rcases List.mem_append.mp hu with hu | hu
      · exact hgreatest u hu hne hu'
      · rw [List.mem_singleton.mp hu] at hne hu'
        exact absurd hu' (hs hne)

/-- A text that meets the requirement and is not smaller than the best one takes its place. -/
theorem Best.take (h : Best spec seen best) (hne : parseVersion s ≠ []) (hs : Meets (parseVersion s) spec)
    (hle : ∀ b, best = some b → parts b ≤ parts (parseVersion s)) :
    Best spec (seen ++ [s]) (some (parseVersion s)) := by
  refine ⟨⟨s, List.mem_append_right _ List.mem_cons_self, hne, rfl⟩, hs, fun t ht hne' ht' => ?_⟩
  rcases List.mem_append.mp ht with ht | ht
  · cases best with
    | none => exact absurd ht' (h t ht hne')
    | some b => exact (h.2.2 t ht hne' ht').trans (hle b rfl)
  · rw [List.mem_singleton.mp ht]

theorem Best.keep {b : Text} (h : Best spec seen (some b))
    (hle : parts (parseVersion s) ≤ parts b) : Best spec (seen ++ [s]) (some b) := by
  obtain ⟨⟨t, ht, hb⟩, hmeets, hgreatest⟩ := h
  refine ⟨⟨t, List.mem_append_left _ ht, hb⟩, hmeets, fun u hu hne hu' => ?_⟩
  rcases List.mem_append.mp hu with hu | hu
  · exact hgreatest u hu hne hu'
  · rw [List.mem_singleton.mp hu]
    exact hle

theorem bestStep_best (hspec : NumberedSpec spec) (h : Best spec seen best)
    (hseen : ∀ s ∈ seen, NonNegative (parseVersion s)) (hs : NonNegative (parseVersion s)) :
    ∃ next, bestStep spec best s = some next ∧ Best spec (seen ++ [s]) next := by
  by_cases hempty : parseVersion s = []
  · refine ⟨best, ?_, h.skip (fun hne => absurd hempty hne)⟩
    simp only [bestStep, hempty, List.isEmpty_nil, if_true]
  · have hcons : (parseVersion s).isEmpty = false := List.isEmpty_eq_false_iff.mpr hempty
    obtain ⟨met, hmet, hiff⟩ := satisfies_spec hs hspec
    cases met with
    | false =>
        refine ⟨best, ?_, h.skip (fun _ hmeets => Bool.false_ne_true (hiff.mpr hmeets))⟩
        simp only [bestStep, hcons, Bool.false_eq_true, if_false, hmet]
    | true =>
        have hmeets := hiff.mp rfl
        cases best with
        | none =>
            refine ⟨_, ?_, h.take hempty hmeets (fun b hb => by cases hb)⟩
            simp only [bestStep, hcons, Bool.false_eq_true, if_false, hmet]
        | some b =>
            obtain ⟨t, ht, -, htb⟩ := h.1
            have hb : NonNegative b := htb ▸ hseen t ht
            obtain ⟨d, hd, hpos, -, -⟩ := compareVersions_spec hs hb
            have hstep : bestStep spec (some b) s = some (if 0 < d then some (parseVersion s) else some b) := by
              simp only [bestStep, hcons, Bool.false_eq_true, if_false, hmet, hd, Option.map_some]
            by_cases hgreater : 0 < d
            · refine ⟨_, hstep, ?_⟩
              rw [if_pos hgreater]
              refine h.take hempty hmeets (fun c hc => ?_)
              cases hc
              exact (hpos.mp hgreater).le
            · refine ⟨_, hstep, ?_⟩
              rw [if_neg hgreater]
              exact h.keep (not_lt.mp (fun hlt => hgreater (hpos.mpr hlt)))

theorem foldlM_bestStep (hspec : NumberedSpec spec) (rest : List Text)
    (h : Best spec seen best) (hall : ∀ s ∈ seen ++ rest, NonNegative (parseVersion s)) :
    ∃ last, rest.foldlM (bestStep spec) best = some last ∧ Best spec (seen ++ rest) last := by
  induction rest generalizing seen best with
  | nil => exact ⟨best, rfl, by rwa [List.append_nil]⟩
  | cons s rest ih =>
      obtain ⟨next, hnext, hbest⟩ := bestStep_best hspec h
        (fun t ht => hall t (List.mem_append_left _ ht))
        (hall s (List.mem_append_right _ List.mem_cons_self))
      obtain ⟨last, hlast, hgoal⟩ := ih hbest (by simpa using hall)
      refine ⟨last, ?_, by simpa using hgoal⟩
      rw [List.foldlM_cons, hnext]
      exact hlast

/-- The search ends, with the greatest listed version that meets the requirement or with none. -/
theorem bestMatch_spec (hspec : NumberedSpec spec) {versions : List Text}
    (hversions : ∀ s ∈ versions, NonNegative (parseVersion s)) :
    ∃ best, Best spec versions best ∧
      bestMatch versions spec = some (match best with
        | some b => .ok b
        | none => .error ("semver: no version satisfies '".toList ++ spec ++ ['\''])) := by
  have hnone : Best spec [] none := fun _ h => absurd h List.not_mem_nil
  obtain ⟨best, hrun, hbest⟩ := foldlM_bestStep hspec versions hnone hversions
  refine ⟨best, hbest, ?_⟩
  rw [bestMatch, hrun, Option.map_some]

/-- A component that is no number counts as zero, and the components of a normal form are in range. Where no
component is negative, comparing never throws and orders the normal forms by their numbers; a requirement on
versions made of numbers is the conjunction of its comparisons; and the search answers with the greatest listed
version that meets the requirement, or with an error if and only if there is none. -/
theorem best_match_picks_greatest (versions : List Text) (spec : Text)
    (hversions : ∀ s ∈ versions, NonNegative (parseVersion s)) (hspec : NumberedSpec spec) :
    (∀ s, parseVersion s ≠ [] →
      parts (parseVersion s) = toLex (component s 0, toLex (component s 1, component s 2))) ∧
      (∀ a b c, Accepted a → Accepted b → Accepted c →
        (compareVersions (parseVersion a) (parseVersion b)).isSome ∧
          (VersionLe (parseVersion a) (parseVersion b) ↔ parts (parseVersion a) ≤ parts (parseVersion b)) ∧
          (VersionLe (parseVersion a) (parseVersion b) ∨ VersionLe (parseVersion b) (parseVersion a)) ∧
          (VersionLe (parseVersion a) (parseVersion b) → VersionLe (parseVersion b) (parseVersion a) →
            parseVersion a = parseVersion b) ∧
          (VersionLe (parseVersion a) (parseVersion b) → VersionLe (parseVersion b) (parseVersion c) →
            VersionLe (parseVersion a) (parseVersion c))) ∧
      (∀ s, Accepted s → ∃ met, satisfies (parseVersion s) spec = some met ∧
        (met = true ↔ Meets (parseVersion s) spec)) ∧
      ((∃ b, bestMatch versions spec = some (.ok b) ∧
          (∃ s ∈ versions, parseVersion s ≠ [] ∧ parseVersion s = b) ∧ Meets b spec ∧
          ∀ s ∈ versions, parseVersion s ≠ [] → Meets (parseVersion s) spec → VersionLe (parseVersion s) b) ∨
        ((∃ e, bestMatch versions spec = some (.error e)) ∧
          ∀ s ∈ versions, parseVersion s ≠ [] → ¬ Meets (parseVersion s) spec)) := by
  refine ⟨fun s hs => parts_parseVersion hs, fun a b c ha hb hc => ?_, fun s hs => satisfies_spec hs.2 hspec, ?_⟩
  · obtain ⟨d, hd, -⟩ := compareVersions_spec ha.2 hb.2
    rw [versionLe_iff ha.2 hb.2, versionLe_iff hb.2 ha.2, versionLe_iff hb.2 hc.2, versionLe_iff ha.2 hc.2]
    refine ⟨by rw [hd]; rfl, Iff.rfl, le_total _ _, fun hab hba => ?_, fun hab hbc => hab.trans hbc⟩
    exact parseVersion_eq_of_parts ha.1 hb.1 (le_antisymm hab hba)
  · obtain ⟨best, hbest, hrun⟩ := bestMatch_spec hspec hversions
    cases best with
    | none => exact .inr ⟨⟨_, hrun⟩, hbest⟩
    | some b =>
        obtain ⟨⟨t, ht, hne, htb⟩, hmeets, hgreatest⟩ := hbest
        have hb : NonNegative b := htb ▸ hversions t ht
        exact .inl ⟨b, hrun, ⟨t, ht, hne, htb⟩, hmeets, fun s hs hne' hs' =>
          (versionLe_iff (hversions s hs) hb).mpr (hgreatest s hs hne' hs')⟩

def threeVersions : List Text := ["1.2.0".toList, "1.10".toList, "2.0.0".toList]

theorem best_match_picks_greatest_below_two :
    ∃ b, bestMatch threeVersions ">=1.0, <2.0".toList = some (.ok b) ∧ Meets b ">=1.0, <2.0".toList := by
  have hnumbered : ∀ s ∈ threeVersions, Numbered s := by decide
  have h := best_match_picks_greatest threeVersions ">=1.0, <2.0".toList
    (fun s hs => nonNegative_parseVersion (hnumbered s hs)) (by decide)
  rcases h.2.2.2 with ⟨b, hb, -, hmeets, -⟩ | ⟨⟨e, he⟩, -⟩
  · exact ⟨b, hb, hmeets⟩
  · have hrun : bestMatch threeVersions ">=1.0, <2.0".toList = some (.ok "1.10.0".toList) := by decide
    rw [hrun] at he
    cases he

/-- A text of letters is a listed version 0.0.0, the wildcard is the version 0.0.0, and a difference overflows. -/
theorem best_match_reads_letters :
    (¬ ∀ versions spec b, bestMatch versions spec = some (.ok b) → ∃ s ∈ versions, Numbered s ∧ parseVersion s = b) ∧
      (¬ ∀ s, parseVersion s ≠ [] → satisfies (parseVersion s) ['*'] = some true) ∧
      ¬ ∀ a b, parseVersion a ≠ [] → parseVersion b ≠ [] →
        (compareVersions (parseVersion a) (parseVersion b)).isSome := by
  refine ⟨fun h => ?_, fun h => ?_, fun h => ?_⟩
  · obtain ⟨s, hs, hnumbered, -⟩ := h ["abc".toList] ">=0".toList "0.0.0".toList (by decide)
    rw [List.mem_singleton.mp hs] at hnumbered
    exact absurd hnumbered (by decide)
  · exact absurd (h "1".toList (by decide)) (by decide)
  · exact absurd (h "-9223372036854775808".toList "1".toList (by decide) (by decide)) (by decide)

end Neutron.Pkg
