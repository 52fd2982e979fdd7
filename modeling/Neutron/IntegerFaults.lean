import Neutron.IntegerGuards

/-!
# Integer operators are exact or fault

The code of an integer expression runs to its end with the value of the expression in the result, or to
the handler with the message of the first fault from the left. A run has no step where an instruction is
undefined, so the guards come before what they guard.
-/

namespace Neutron.Integers

variable {c c' d : FunctionContext} {m m' : Machine} {x y : BitVec 64} {lhs rhs : Operand}

/-! ### Operators on bit vectors and on integers -/

def IntArith.exact (a b : ℤ) : IntArith → ℤ
  | .add => a + b
  | .sub => a - b
  | .mul => a * b

theorem fits_toInt (x : BitVec 64) : Fits x.toInt := ⟨x.le_toInt, x.toInt_lt⟩

theorem intrinsic_overflows (op : IntArith) (x y : BitVec 64) :
    (op.intrinsic x y).2 = !decide (Fits (op.exact x.toInt y.toInt)) := by
  have hout : ∀ n : ℤ, (decide (n ≥ 2 ^ (64 - 1)) || decide (n < -2 ^ (64 - 1))) = !decide (Fits n) := by
    intro n
    rw [Bool.eq_iff_iff, Bool.or_eq_true, decide_eq_true_iff, decide_eq_true_iff, Bool.not_eq_true',
      decide_eq_false_iff_not, Fits]
    change n ≥ 2 ^ 63 ∨ n < -2 ^ 63 ↔ _
    omega
  cases op with
  | add => exact hout _
  | sub => exact hout _
  | mul => exact hout _

theorem intrinsic_exact (op : IntArith) (x y : BitVec 64) (h : Fits (op.exact x.toInt y.toInt)) :
    (op.intrinsic x y).1.toInt = op.exact x.toInt y.toInt := by
  have hnot : ¬ (op.intrinsic x y).2 = true := by
    rw [intrinsic_overflows, decide_eq_true h]
    exact Bool.false_ne_true
  cases op with
  | add => exact BitVec.toInt_add_of_not_saddOverflow hnot
  | sub => exact BitVec.toInt_sub_of_not_ssubOverflow hnot
  | mul => exact BitVec.toInt_mul_of_not_smulOverflow hnot

theorem toInt_eq_zero_iff : y.toInt = 0 ↔ y = 0 := by
  rw [← BitVec.toInt_inj]
  rfl

theorem toInt_eq_neg_one_iff : y.toInt = -1 ↔ y = -1 := by
  rw [← BitVec.toInt_inj]
  rfl

theorem toInt_eq_min_iff : x.toInt = -2 ^ 63 ↔ x = BitVec.intMin 64 := by
  rw [← BitVec.toInt_inj]
  rfl

/-- An amount is in range when it is below 64 as an unsigned number. -/
theorem amount_in_range_iff : 0 ≤ y.toInt ∧ y.toInt < 64 ↔ y.toNat < 64 := by
  have hlt := y.isLt
  rw [BitVec.toInt_eq_toNat_cond]
  split <;> omega

theorem toNat_amount (h : y.toNat < 64) : y.toInt.toNat = y.toNat := by
  have hlt := y.isLt
  rw [BitVec.toInt_eq_toNat_cond]
  split <;> omega

/-! ### Operands -/

/-- The operand is a constant or a value built before number `n`. -/
def Operand.Below (n : ℕ) : Operand → Prop
  | .const _ => True
  | .reg r => r < n

theorem Operand.Below.mono {n k : ℕ} {o : Operand} (h : o.Below n) (hle : n ≤ k) : o.Below k := by
  cases o with
  | const v => exact h
  | reg r => exact Nat.lt_of_lt_of_le h hle

theorem Kept.int {n : ℕ} {o : Operand} (h : Kept n m m') (ho : o.Below n) : m'.int o = m.int o := by
  cases o with
  | const v => rfl
  | reg r => rw [Machine.int, Machine.int, h.regs r ho]

theorem set_regs (m : Machine) (n : ℕ) (v : Value) (r : ℕ) :
    (m.set n v).regs r = if r = n then some v else m.regs r := rfl

theorem int_const (m : Machine) (v : BitVec 64) : m.int (.const v) = some v := rfl

/-- What the code of an operator does: it leaves the result or faults. -/
def Outcome (c c' : FunctionContext) (m : Machine) (v : Operand) : Except String ℤ → Prop
  | .ok n => ∃ m' x, Reaches c c' m m' ∧ Kept c.next m m' ∧ m'.int v = some x ∧ x.toInt = n
  | .error message => Faults c c' m message

/-! ### The operators -/

/-- One instruction behind a guard. -/
theorem guarded_arith {op : Opcode} {fault : Option String} {r : Except String ℤ} (hguard : Guards c c' m fault)
    (hemits : Emits c c') (hx : m.int lhs = some x) (hy : m.int rhs = some y) (hl : lhs.Below c.next)
    (hr : rhs.Below c.next) (hfault : ∀ message, fault = some message → r = .error message)
    (hpass : fault = none → ∃ z, op.apply x y = some z ∧ r = .ok z.toInt) :
    Outcome c (emitArith c' op lhs rhs).1 m (emitArith c' op lhs rhs).2 r := by
  have hlast := (Emits.refl hemits.placed).build (.arith op lhs rhs)
  cases fault with
  | some message =>
    rw [hfault message rfl]
    exact Faults.later hguard hlast
  | none =>
    obtain ⟨z, hz, rfl⟩ := hpass rfl
    obtain ⟨m', hreaches, hkept⟩ := hguard
    have hexec : exec (c'.next, .arith op lhs rhs) m' = some (m'.set c'.next (.int z)) := by
      simp only [exec, Instr.value, hkept.int hl, hkept.int hr, hx, hy, hz, Option.bind_eq_bind,
        Option.bind_some, Option.map_some]
    refine ⟨m'.set c'.next (.int z), z, hreaches.trans (reaches_build hemits.placed hexec) hlast.builds.within,
      hkept.set hemits.next _, ?_, rfl⟩
    change Machine.int _ (.reg c'.next) = _
    rw [Machine.int, set_regs, if_pos rfl]

theorem guards_nothing : Guards c c m none := ⟨m, .refl c m, .refl _ m⟩

/-- The intrinsic, its two parts and the guard on the second. -/
theorem emitCheckedIntArith_outcome (h : c.builder.Placed) (op : IntArith) (hx : m.int lhs = some x)
    (hy : m.int rhs = some y) : Outcome c (emitCheckedIntArith c op lhs rhs).1 m
      (emitCheckedIntArith c op lhs rhs).2 (fitting (op.exact x.toInt y.toInt) op.message) := by
  have h1 := (Emits.refl h).build (.withOverflow op lhs rhs)
  have h2 := (Emits.refl h1.placed).build (.extractResult c.next)
  have h3 := (Emits.refl h2.placed).build (.extractOverflow c.next)
  have hpair : exec (c.next, .withOverflow op lhs rhs) m =
      some (m.set c.next (.pair (op.intrinsic x y).1 (op.intrinsic x y).2)) := by
    simp only [exec, Instr.value, hx, hy, Option.bind_eq_bind, Option.bind_some, Option.map_some]
  obtain ⟨m1, hm1⟩ : ∃ m1, m1 = m.set c.next (.pair (op.intrinsic x y).1 (op.intrinsic x y).2) := ⟨_, rfl⟩
  rw [← hm1] at hpair
  have hread1 : m1.pair c.next = some (op.intrinsic x y) := by
    rw [Machine.pair, hm1, set_regs, if_pos rfl]
  have hresult : exec (c.next + 1, .extractResult c.next) m1 =
      some (m1.set (c.next + 1) (.int (op.intrinsic x y).1)) := by
    simp only [exec, Instr.value, hread1, Option.map_some]
  obtain ⟨m2, hm2⟩ : ∃ m2, m2 = m1.set (c.next + 1) (.int (op.intrinsic x y).1) := ⟨_, rfl⟩
  rw [← hm2] at hresult
  have hread2 : m2.pair c.next = some (op.intrinsic x y) := by
    rw [Machine.pair, hm2, set_regs, if_neg (by omega), hm1, set_regs, if_pos rfl]
  have hflag : exec (c.next + 2, .extractOverflow c.next) m2 =
      some (m2.set (c.next + 2) (.bool (op.intrinsic x y).2)) := by
    simp only [exec, Instr.value, hread2, Option.map_some]
  obtain ⟨m3, hm3⟩ : ∃ m3, m3 = m2.set (c.next + 2) (.bool (op.intrinsic x y).2) := ⟨_, rfl⟩
  rw [← hm3] at hflag
  have hcondition : m3.bool (c.next + 2) = some (op.intrinsic x y).2 := by
    rw [Machine.bool, hm3, set_regs, if_pos rfl]
  have hkept : Kept c.next m m3 := by
    rw [hm3, hm2, hm1]
    exact (((Kept.refl c.next m).set (Nat.le_refl _) _).set (Nat.le_succ _) _).set (by omega) _
  have hreach : Reaches c (((c.build (.withOverflow op lhs rhs)).1.build (.extractResult c.next)).1.build
      (.extractOverflow c.next)).1 m m3 :=
    ((reaches_build h hpair).trans (reaches_build h1.placed hresult) h2.builds.within).trans
      (reaches_build h2.placed hflag) h3.builds.within
  have hguard := emitGuardThrow_guards h3.placed hcondition op.message
  have hlast := (Emits.refl h3.placed).guardThrow (c.next + 2) op.message
  rw [fitting]
  rw [intrinsic_overflows] at hguard
  by_cases hfits : Fits (op.exact x.toInt y.toInt)
  · rw [if_pos hfits]
    rw [decide_eq_true hfits] at hguard
    obtain ⟨m4, hreach4, hkept4⟩ := hguard
    refine ⟨m4, (op.intrinsic x y).1, hreach.trans hreach4 hlast.builds.within, hkept.trans hkept4 (by
      change c.next ≤ c.next + 1 + 1 + 1; omega), ?_, intrinsic_exact op x y hfits⟩
    change Machine.int m4 (.reg (c.next + 1)) = _
    rw [hkept4.int (o := .reg (c.next + 1)) (by change c.next + 1 < c.next + 1 + 1 + 1; omega), Machine.int, hm3,
      set_regs, if_neg (by omega), hm2, set_regs, if_pos rfl]
  · rw [if_neg hfits]
    rw [decide_eq_false hfits] at hguard
    exact hreach.faults hkept.slots hguard hlast.builds.within

theorem Emits.checkedIntArith (h : Emits d c) (op : IntArith) (lhs rhs : Operand) :
    Emits d (emitCheckedIntArith c op lhs rhs).1 :=
  (((h.build _).build _).build _).guardThrow _ _

/-- The shift guard: one unsigned comparison covers both ends. -/
theorem emitShiftAmountGuard_guards (h : c.builder.Placed) (hy : m.int rhs = some y) :
    Guards c (emitShiftAmountGuard c rhs) m
      (if y.toNat < 64 then none else some "shift amount out of range") := by
  have h1 := (Emits.refl h).build (.icmp .uge rhs (.const 64))
  have hexec : exec (c.next, .icmp .uge rhs (.const 64)) m =
      some (m.set c.next (.bool (Predicate.apply y 64 .uge))) := by
    simp only [exec, Instr.value, hy, int_const, Option.bind_eq_bind, Option.bind_some, Option.map_some]
  have hcondition : (m.set c.next (.bool (Predicate.apply y 64 .uge))).bool c.next =
      some (Predicate.apply y 64 .uge) := by
    rw [Machine.bool, set_regs, if_pos rfl]
  have hguard := emitGuardThrow_guards h1.placed hcondition "shift amount out of range"
  have hlast := (Emits.refl h1.placed).guardThrow c.next "shift amount out of range"
  have hreach := reaches_build h hexec
  by_cases hlt : y.toNat < 64
  · have hfalse : Predicate.apply y 64 .uge = false := decide_eq_false (Nat.not_le.mpr hlt)
    rw [hfalse] at hguard hreach
    rw [if_pos hlt]
    obtain ⟨m', hreach', hkept⟩ := hguard
    exact ⟨m', hreach.trans hreach' hlast.builds.within,
      ((Kept.refl c.next m).set (Nat.le_refl _) _).trans hkept (Nat.le_succ _)⟩
  · have htrue : Predicate.apply y 64 .uge = true := decide_eq_true (Nat.not_lt.mp hlt)
    rw [htrue] at hguard hreach
    rw [if_neg hlt]
    exact hreach.faults rfl hguard hlast.builds.within

theorem Emits.shiftAmountGuard (h : Emits d c) (rhs : Operand) : Emits d (emitShiftAmountGuard c rhs) :=
  (h.build _).guardThrow _ _

/-- The divisor guard. -/
theorem emitCheckedDivisorGuard_guards (h : c.builder.Placed) (hx : m.int lhs = some x)
    (hy : m.int rhs = some y) (hl : lhs.Below c.next) (hr : rhs.Below c.next) :
    Guards c (emitCheckedDivisorGuard c lhs rhs) m
      (if y = 0 then some "division by zero"
        else if x = BitVec.intMin 64 ∧ y = -1 then some "integer division overflow" else none) := by
  have h1 := (Emits.refl h).build (.icmp .eq rhs (.const 0))
  have h2 := (Emits.refl h1.placed).build (.icmp .eq lhs (.const (BitVec.intMin 64)))
  have h3 := (Emits.refl h2.placed).build (.icmp .eq rhs (.const (-1)))
  have h4 := (Emits.refl h3.placed).build (.andBool (c.next + 1) (c.next + 2))
  obtain ⟨m1, hm1⟩ : ∃ m1, m1 = m.set c.next (.bool (Predicate.apply y 0 .eq)) := ⟨_, rfl⟩
  obtain ⟨m2, hm2⟩ : ∃ m2, m2 = m1.set (c.next + 1) (.bool (Predicate.apply x (BitVec.intMin 64) .eq)) :=
    ⟨_, rfl⟩
  obtain ⟨m3, hm3⟩ : ∃ m3, m3 = m2.set (c.next + 2) (.bool (Predicate.apply y (-1) .eq)) := ⟨_, rfl⟩
  obtain ⟨m4, hm4⟩ : ∃ m4, m4 = m3.set (c.next + 3)
    (.bool (Predicate.apply x (BitVec.intMin 64) .eq && Predicate.apply y (-1) .eq)) := ⟨_, rfl⟩
  have hkept1 : Kept c.next m m1 := hm1 ▸ (Kept.refl c.next m).set (Nat.le_refl _) _
  have hkept2 : Kept c.next m m2 := hm2 ▸ hkept1.set (Nat.le_succ _) _
  have hkept3 : Kept c.next m m3 := hm3 ▸ hkept2.set (by omega) _
  have hkept4 : Kept c.next m m4 := hm4 ▸ hkept3.set (by omega) _
  have hzero : exec (c.next, .icmp .eq rhs (.const 0)) m = some m1 := by
    simp only [exec, Instr.value, hy, int_const, Option.bind_eq_bind, Option.bind_some, Option.map_some, hm1]
  have hmin : exec (c.next + 1, .icmp .eq lhs (.const (BitVec.intMin 64))) m1 = some m2 := by
    simp only [exec, Instr.value, hkept1.int hl, hx, int_const, Option.bind_eq_bind, Option.bind_some,
      Option.map_some, hm2]
  have hnegOne : exec (c.next + 2, .icmp .eq rhs (.const (-1))) m2 = some m3 := by
    simp only [exec, Instr.value, hkept2.int hr, hy, int_const, Option.bind_eq_bind, Option.bind_some,
      Option.map_some, hm3]
  have hread1 : m3.bool (c.next + 1) = some (Predicate.apply x (BitVec.intMin 64) .eq) := by
    rw [Machine.bool, hm3, set_regs, if_neg (by omega), hm2, set_regs, if_pos rfl]
  have hread2 : m3.bool (c.next + 2) = some (Predicate.apply y (-1) .eq) := by
    rw [Machine.bool, hm3, set_regs, if_pos rfl]
  have hboth : exec (c.next + 3, .andBool (c.next + 1) (c.next + 2)) m3 = some m4 := by
    simp only [exec, Instr.value, hread1, hread2, Option.bind_eq_bind, Option.bind_some, Option.map_some, hm4]
  have hb : m4.bool c.next = some (Predicate.apply y 0 .eq) := by
    rw [Machine.bool, hm4, set_regs, if_neg (by omega), hm3, set_regs, if_neg (by omega), hm2, set_regs,
      if_neg (by omega), hm1, set_regs, if_pos rfl]
  have ho : m4.bool (c.next + 3) =
      some (Predicate.apply x (BitVec.intMin 64) .eq && Predicate.apply y (-1) .eq) := by
    rw [Machine.bool, hm4, set_regs, if_pos rfl]
  have hreach : Reaches c (divisorTests c lhs rhs) m m4 :=
    (((reaches_build h hzero).trans (reaches_build h1.placed hmin) h2.builds.within).trans
      (reaches_build h2.placed hnegOne) h3.builds.within).trans (reaches_build h3.placed hboth) h4.builds.within
  have hguard := divisorThrows_guards h4.placed hb ho
  have hlast := (Emits.refl h4.placed).divisorThrows c.next (c.next + 3)
  rw [emitCheckedDivisorGuard_eq]
  have hsame : (if Predicate.apply y 0 .eq then some "division by zero"
      else if Predicate.apply x (BitVec.intMin 64) .eq && Predicate.apply y (-1) .eq then
        some "integer division overflow" else none) =
      (if y = 0 then some "division by zero"
        else if x = BitVec.intMin 64 ∧ y = -1 then some "integer division overflow" else none) := by
    simp only [Predicate.apply, decide_eq_true_iff, Bool.and_eq_true]
  rw [hsame] at hguard
  cases hfault : (if y = 0 then some "division by zero"
      else if x = BitVec.intMin 64 ∧ y = -1 then some "integer division overflow" else none) with
  | none =>
    rw [hfault] at hguard
    obtain ⟨m', hreach', hkept⟩ := hguard
    exact ⟨m', hreach.trans hreach' hlast.builds.within, hkept4.trans hkept (by
      change c.next ≤ c.next + 1 + 1 + 1 + 1; omega)⟩
  | some message =>
    rw [hfault] at hguard
    exact hreach.faults hkept4.slots hguard hlast.builds.within

theorem Emits.checkedDivisorGuard (h : Emits d c) (lhs rhs : Operand) :
    Emits d (emitCheckedDivisorGuard c lhs rhs) := by
  rw [emitCheckedDivisorGuard_eq]
  exact (h.divisorTests lhs rhs).divisorThrows _ _

theorem Emits.binaryOp (h : Emits d c) (lhs rhs : Operand) (op : BinaryOp) :
    Emits d (emitBinaryOp c lhs rhs op).1 := by
  cases op with
  | plus => exact h.checkedIntArith _ _ _
  | minus => exact h.checkedIntArith _ _ _
  | star => exact h.checkedIntArith _ _ _
  | slash => exact (h.checkedDivisorGuard _ _).build _
  | percent => exact (h.checkedDivisorGuard _ _).build _
  | ampersand => exact h.build _
  | pipe => exact h.build _
  | caret => exact h.build _
  | lessLess => exact (h.shiftAmountGuard _).build _
  | greaterGreater => exact (h.shiftAmountGuard _).build _

/-- The fault of a division, if there is one. -/
def divisionFault (x y : BitVec 64) : Option String :=
  if y = 0 then some "division by zero"
  else if x = BitVec.intMin 64 ∧ y = -1 then some "integer division overflow" else none

theorem divisionFault_none_iff : divisionFault x y = none ↔ y ≠ 0 ∧ ¬ (x = BitVec.intMin 64 ∧ y = -1) := by
  rw [divisionFault]
  by_cases hy : y = 0
  · rw [if_pos hy]
    exact ⟨fun h => absurd h (by simp), fun h => absurd hy h.1⟩
  · rw [if_neg hy]
    by_cases hmin : x = BitVec.intMin 64 ∧ y = -1
    · rw [if_pos hmin]
      exact ⟨fun h => absurd h (by simp), fun h => absurd hmin h.2⟩
    · rw [if_neg hmin]
      exact ⟨fun _ => ⟨hy, hmin⟩, fun _ => rfl⟩

variable {message : String}

theorem slash_faults (h : divisionFault x y = some message) :
    BinaryOp.apply x.toInt y.toInt .slash = .error message := by
  rw [BinaryOp.apply]
  rw [divisionFault] at h
  by_cases hy : y = 0
  · rw [if_pos hy] at h
    rw [if_pos (toInt_eq_zero_iff.mpr hy), Option.some.inj h]
  · rw [if_neg hy] at h
    by_cases hmin : x = BitVec.intMin 64 ∧ y = -1
    · rw [if_pos hmin] at h
      have hx := toInt_eq_min_iff.mpr hmin.1
      have hy' := toInt_eq_neg_one_iff.mpr hmin.2
      have hout : ¬ Fits ((-2 ^ 63 : ℤ).tdiv (-1)) := by decide
      rw [if_neg (mt toInt_eq_zero_iff.mp hy), hx, hy', fitting, if_neg hout, Option.some.inj h]
    · rw [if_neg hmin] at h
      cases h

theorem slash_exact (h : divisionFault x y = none) :
    ∃ z, Opcode.apply x y .sdiv = some z ∧ BinaryOp.apply x.toInt y.toInt .slash = .ok z.toInt := by
  obtain ⟨hy, hmin⟩ := divisionFault_none_iff.mp h
  refine ⟨x.sdiv y, if_neg (not_or.mpr ⟨hy, hmin⟩), ?_⟩
  have hquotient : (x.sdiv y).toInt = x.toInt.tdiv y.toInt :=
    BitVec.toInt_sdiv_of_ne_or_ne x y (not_and_or.mp hmin)
  have hfits := fits_toInt (x.sdiv y)
  rw [hquotient] at hfits
  rw [BinaryOp.apply, if_neg (mt toInt_eq_zero_iff.mp hy), fitting, if_pos hfits, hquotient]

theorem percent_faults (h : divisionFault x y = some message) :
    BinaryOp.apply x.toInt y.toInt .percent = .error message := by
  rw [BinaryOp.apply]
  rw [divisionFault] at h
  by_cases hy : y = 0
  · rw [if_pos hy] at h
    rw [if_pos (toInt_eq_zero_iff.mpr hy), Option.some.inj h]
  · rw [if_neg hy] at h
    by_cases hmin : x = BitVec.intMin 64 ∧ y = -1
    · rw [if_pos hmin] at h
      rw [if_neg (mt toInt_eq_zero_iff.mp hy),
        if_pos ⟨toInt_eq_min_iff.mpr hmin.1, toInt_eq_neg_one_iff.mpr hmin.2⟩, Option.some.inj h]
    · rw [if_neg hmin] at h
      cases h

theorem percent_exact (h : divisionFault x y = none) :
    ∃ z, Opcode.apply x y .srem = some z ∧ BinaryOp.apply x.toInt y.toInt .percent = .ok z.toInt := by
  obtain ⟨hy, hmin⟩ := divisionFault_none_iff.mp h
  have hmin' : ¬ (x.toInt = -2 ^ 63 ∧ y.toInt = -1) := by
    rw [toInt_eq_min_iff, toInt_eq_neg_one_iff]
    exact hmin
  refine ⟨x.srem y, if_neg (not_or.mpr ⟨hy, hmin⟩), ?_⟩
  rw [BinaryOp.apply, if_neg (mt toInt_eq_zero_iff.mp hy), if_neg hmin', BitVec.toInt_srem]

/-- The fault of a shift, if there is one. -/
def shiftFault (y : BitVec 64) : Option String := if y.toNat < 64 then none else some "shift amount out of range"

theorem shiftFault_none (h : shiftFault y = none) : y.toNat < 64 := by
  by_contra hge
  rw [shiftFault, if_neg hge] at h
  cases h

theorem shiftFault_some (h : shiftFault y = some message) :
    ¬ y.toNat < 64 ∧ message = "shift amount out of range" := by
  rw [shiftFault] at h
  by_cases hlt : y.toNat < 64
  · rw [if_pos hlt] at h
    cases h
  · rw [if_neg hlt] at h
    exact ⟨hlt, (Option.some.inj h).symm⟩

theorem lessLess_faults (h : shiftFault y = some message) :
    BinaryOp.apply x.toInt y.toInt .lessLess = .error message := by
  obtain ⟨hge, rfl⟩ := shiftFault_some h
  rw [BinaryOp.apply, if_neg (mt amount_in_range_iff.mp hge)]

theorem lessLess_exact (h : shiftFault y = none) :
    ∃ z, Opcode.apply x y .shl = some z ∧ BinaryOp.apply x.toInt y.toInt .lessLess = .ok z.toInt := by
  have hlt := shiftFault_none h
  refine ⟨x <<< y.toNat, if_pos hlt, ?_⟩
  rw [BinaryOp.apply, if_pos (amount_in_range_iff.mpr hlt), toNat_amount hlt, toInt_shiftLeft_eq_mul]

theorem greaterGreater_faults (h : shiftFault y = some message) :
    BinaryOp.apply x.toInt y.toInt .greaterGreater = .error message := by
  obtain ⟨hge, rfl⟩ := shiftFault_some h
  rw [BinaryOp.apply, if_neg (mt amount_in_range_iff.mp hge)]

theorem greaterGreater_exact (h : shiftFault y = none) :
    ∃ z, Opcode.apply x y .ashr = some z ∧ BinaryOp.apply x.toInt y.toInt .greaterGreater = .ok z.toInt := by
  have hlt := shiftFault_none h
  refine ⟨x.sshiftRight y.toNat, if_pos hlt, ?_⟩
  rw [BinaryOp.apply, if_pos (amount_in_range_iff.mpr hlt), toNat_amount hlt, BitVec.toInt_sshiftRight,
    Int.shiftRight_eq_div_pow]
  norm_cast

/-- Every operator on two values. -/
theorem emitBinaryOp_outcome (h : c.builder.Placed) (op : BinaryOp) (hx : m.int lhs = some x)
    (hy : m.int rhs = some y) (hl : lhs.Below c.next) (hr : rhs.Below c.next) :
    Outcome c (emitBinaryOp c lhs rhs op).1 m (emitBinaryOp c lhs rhs op).2 (op.apply x.toInt y.toInt) := by
  have hnone : ∀ {r : Except String ℤ} message, (none : Option String) = some message → r = .error message :=
    fun _ hbad => absurd hbad (by simp)
  have hdivides := emitCheckedDivisorGuard_guards h hx hy hl hr
  have hshifts := emitShiftAmountGuard_guards h hy
  have hdivisor := (Emits.refl h).checkedDivisorGuard lhs rhs
  have hamount := (Emits.refl h).shiftAmountGuard rhs
  cases op with
  | plus => exact emitCheckedIntArith_outcome h .add hx hy
  | minus => exact emitCheckedIntArith_outcome h .sub hx hy
  | star => exact emitCheckedIntArith_outcome h .mul hx hy
  | slash => exact guarded_arith hdivides hdivisor hx hy hl hr (fun _ => slash_faults) slash_exact
  | percent => exact guarded_arith hdivides hdivisor hx hy hl hr (fun _ => percent_faults) percent_exact
  | ampersand =>
    exact guarded_arith guards_nothing (.refl h) hx hy hl hr hnone
      fun _ => ⟨x &&& y, rfl, congrArg Except.ok (toInt_and_eq_land x y).symm⟩
  | pipe =>
    exact guarded_arith guards_nothing (.refl h) hx hy hl hr hnone
      fun _ => ⟨x ||| y, rfl, congrArg Except.ok (toInt_or_eq_lor x y).symm⟩
  | caret =>
    exact guarded_arith guards_nothing (.refl h) hx hy hl hr hnone
      fun _ => ⟨x ^^^ y, rfl, congrArg Except.ok (toInt_xor_eq_xor x y).symm⟩
  | lessLess => exact guarded_arith hshifts hamount hx hy hl hr (fun _ => lessLess_faults) lessLess_exact
  | greaterGreater =>
    exact guarded_arith hshifts hamount hx hy hl hr (fun _ => greaterGreater_faults) greaterGreater_exact

theorem emitUnaryOp_outcome (h : c.builder.Placed) (op : UnaryOp) (hx : m.int lhs = some x) :
    Outcome c (emitUnaryOp c lhs op).1 m (emitUnaryOp c lhs op).2 (op.apply x.toInt) := by
  cases op with
  | minus =>
    have hzero := emitCheckedIntArith_outcome h .sub (int_const m 0) hx
    have hfrom : (0 : BitVec 64).toInt = 0 := rfl
    rw [IntArith.exact, hfrom, zero_sub] at hzero
    exact hzero
  | tilde =>
    have hexec : exec (c.next, .not lhs) m = some (m.set c.next (.int (~~~x))) := by
      simp only [exec, Instr.value, hx, Option.map_some]
    refine ⟨_, ~~~x, reaches_build h hexec, (Kept.refl _ _).set (Nat.le_refl _) _, ?_,
      toInt_not_eq_neg x (by decide)⟩
    change Machine.int _ (.reg c.next) = _
    rw [Machine.int, set_regs, if_pos rfl]

theorem Emits.unaryOp (h : Emits d c) (operand : Operand) (op : UnaryOp) :
    Emits d (emitUnaryOp c operand op).1 := by
  cases op with
  | minus => exact h.checkedIntArith _ _ _
  | tilde => exact h.build _

/-! ### Expressions -/

theorem below_emitCheckedIntArith (h : c.builder.Placed) (op : IntArith) :
    (emitCheckedIntArith c op lhs rhs).2.Below (emitCheckedIntArith c op lhs rhs).1.next := by
  have hbuilt := (((Emits.refl h).build (.withOverflow op lhs rhs)).build (.extractResult c.next)).build
    (.extractOverflow c.next)
  have hnext := ((Emits.refl hbuilt.placed).guardThrow (c.next + 2) op.message).next
  change c.next + 1 + 1 + 1 ≤ _ at hnext
  change c.next + 1 < _
  exact Nat.lt_of_lt_of_le (by omega) hnext

theorem below_emitBinaryOp (h : c.builder.Placed) (op : BinaryOp) :
    (emitBinaryOp c lhs rhs op).2.Below (emitBinaryOp c lhs rhs op).1.next := by
  cases op with
  | plus => exact below_emitCheckedIntArith h .add
  | minus => exact below_emitCheckedIntArith h .sub
  | star => exact below_emitCheckedIntArith h .mul
  | slash => exact Nat.lt_succ_self _
  | percent => exact Nat.lt_succ_self _
  | ampersand => exact Nat.lt_succ_self _
  | pipe => exact Nat.lt_succ_self _
  | caret => exact Nat.lt_succ_self _
  | lessLess => exact Nat.lt_succ_self _
  | greaterGreater => exact Nat.lt_succ_self _

theorem below_emitUnaryOp (h : c.builder.Placed) (op : UnaryOp) :
    (emitUnaryOp c lhs op).2.Below (emitUnaryOp c lhs op).1.next := by
  cases op with
  | minus => exact below_emitCheckedIntArith h .sub
  | tilde => exact Nat.lt_succ_self _

theorem Emits.expression (e : Expr) (h : Emits d c) : Emits d (emitExpression c e).1 := by
  induction e generalizing c with
  | literal v => exact h
  | «variable» name => exact h.build _
  | grouping e ih => exact ih h
  | unary op right ih => exact (ih h).unaryOp _ op
  | binary left op right ihl ihr => exact (ihr (ihl h)).binaryOp _ _ op

theorem below_emitExpression (e : Expr) (h : c.builder.Placed) :
    (emitExpression c e).2.Below (emitExpression c e).1.next := by
  induction e generalizing c with
  | literal v => trivial
  | «variable» name => exact Nat.lt_succ_self _
  | grouping e ih => exact ih h
  | unary op right ih => exact below_emitUnaryOp ((Emits.refl h).expression right).placed op
  | binary left op right ihl ihr =>
    exact below_emitBinaryOp (((Emits.refl h).expression left).expression right).placed op

/-- What an operator does after its operands. -/
theorem Reaches.outcome {v : Operand} {r : Except String ℤ} (h : Reaches c c' m m') (hkept : Kept c.next m m')
    (hle : c.next ≤ c'.next) (h' : Outcome c' d m' v r) (hemits : Emits c' d) : Outcome c d m v r := by
  cases r with
  | error message => exact h.faults hkept.slots h' hemits.builds.within
  | ok n =>
    obtain ⟨m'', x, hreach, hkept', hx, hn⟩ := h'
    exact ⟨m'', x, h.trans hreach hemits.builds.within, hkept.trans hkept' hle, hx, hn⟩

/-- The code of an expression leaves its exact value, or reaches the handler with the message of the first
fault from the left, and no instruction on the way is undefined. -/
theorem emitExpression_exact_or_faults (e : Expr) (h : c.builder.Placed) (m : Machine) :
    Outcome c (emitExpression c e).1 m (emitExpression c e).2 (e.value m.slots) := by
  induction e generalizing c m with
  | literal v => exact ⟨m, v, .refl c m, .refl _ m, rfl, rfl⟩
  | «variable» name =>
    have hexec : exec (c.next, .load name) m = some (m.set c.next (.int (m.slots name))) := rfl
    refine ⟨_, m.slots name, reaches_build h hexec, (Kept.refl _ _).set (Nat.le_refl _) _, ?_, rfl⟩
    change Machine.int _ (.reg c.next) = _
    rw [Machine.int, set_regs, if_pos rfl]
  | grouping e ih => exact ih h m
  | unary op right ih =>
    have hoperand := (Emits.refl h).expression right
    have hright := ih h m
    have hlast := (Emits.refl hoperand.placed).unaryOp (emitExpression c right).2 op
    rw [Expr.value]
    cases hvalue : right.value m.slots with
    | error message =>
      rw [hvalue] at hright
      exact Faults.later hright hlast
    | ok a =>
      rw [hvalue] at hright
      obtain ⟨m', x, hreach, hkept, hx, rfl⟩ := hright
      exact hreach.outcome hkept hoperand.next (emitUnaryOp_outcome hoperand.placed op hx) hlast
  | binary left op right ihl ihr =>
    have hfirst := (Emits.refl h).expression left
    have hsecond := (Emits.refl hfirst.placed).expression right
    have hlast := (Emits.refl hsecond.placed).binaryOp (emitExpression c left).2
      (emitExpression (emitExpression c left).1 right).2 op
    have hleft := ihl h m
    rw [Expr.value]
    cases hvalue : left.value m.slots with
    | error message =>
      rw [hvalue] at hleft
      exact Faults.later hleft (hsecond.trans hlast)
    | ok a =>
      rw [hvalue] at hleft
      obtain ⟨m', x, hreach, hkept, hx, rfl⟩ := hleft
      refine hreach.outcome hkept hfirst.next ?_ (hsecond.trans hlast)
      have hright := ihr hfirst.placed m'
      rw [hkept.slots] at hright
      cases hvalue' : right.value m.slots with
      | error message =>
        rw [hvalue'] at hright
        exact Faults.later hright hlast
      | ok b =>
        rw [hvalue'] at hright
        obtain ⟨m'', y, hreach', hkept', hy, rfl⟩ := hright
        have hbelow := below_emitExpression left h
        -- the left value is still there when the operator reads it
        exact hreach'.outcome hkept' hsecond.next (emitBinaryOp_outcome hsecond.placed op
          ((hkept'.int hbelow).trans hx) hy (hbelow.mono hsecond.next)
          (below_emitExpression right hfirst.placed)) hlast

/-- A function with one open block. -/
def freshFunction : FunctionContext := ⟨⟨[[]], 0⟩, 0, [], none⟩

/-- The minimum divided by minus one, under a variable that is zero. -/
def minimumByMinusOne : Expr :=
  .binary (.variable "zero") .plus (.binary (.literal (BitVec.intMin 64)) .slash (.literal (-1)))

theorem minimumByMinusOne_faults : Faults freshFunction (emitExpression freshFunction minimumByMinusOne).1
    ⟨fun _ => none, fun _ => 0, none⟩ "integer division overflow" :=
  emitExpression_exact_or_faults minimumByMinusOne (c := freshFunction) (Nat.lt_succ_self 0)
    ⟨fun _ => none, fun _ => 0, none⟩

end Neutron.Integers
