import Mathlib.Data.Int.Bitwise
import Mathlib.Data.BitVec

/-!
# Bit vectors as two's complement integers

What the operations on bit vectors are on the integers the vectors stand for. An integer is known by its
bits, those of a vector followed by copies of the sign.
-/

namespace Neutron

theorem int_eq_of_testBit_eq {m n : ℤ} (h : ∀ k, m.testBit k = n.testBit k) : m = n := by
  have hmixed : ∀ a b : ℕ, ¬ ∀ k, a.testBit k = !b.testBit k := by
    intro a b hab
    -- both are zero at a place above either number
    have hk := hab (a + b)
    have ha : a < 2 ^ (a + b) := Nat.lt_of_lt_of_le Nat.lt_two_pow_self (Nat.pow_le_pow_right (by omega) (by omega))
    have hb : b < 2 ^ (a + b) := Nat.lt_of_lt_of_le Nat.lt_two_pow_self (Nat.pow_le_pow_right (by omega) (by omega))
    rw [Nat.testBit_lt_two_pow ha, Nat.testBit_lt_two_pow hb] at hk
    cases hk
  cases m with
  | ofNat a =>
    cases n with
    | ofNat b => exact congrArg Int.ofNat (Nat.eq_of_testBit_eq h)
    | negSucc b => exact absurd h (hmixed a b)
  | negSucc a =>
    cases n with
    | ofNat b => exact absurd (fun k => (h k).symm) (hmixed b a)
    | negSucc b => exact congrArg Int.negSucc (Nat.eq_of_testBit_eq fun k => Bool.not_inj (h k))

variable {w : ℕ} (x y : BitVec w)

theorem testBit_toInt (k : ℕ) : x.toInt.testBit k = if k < w then x.getLsbD k else x.msb := by
  cases hm : x.msb with
  | false =>
    rw [BitVec.toInt_eq_toNat_of_msb hm]
    change x.toNat.testBit k = _
    by_cases hk : k < w
    · rw [if_pos hk]
      rfl
    · rw [if_neg hk]
      exact BitVec.getLsbD_of_ge x k (by omega)
  | true =>
    have hneg : x.toInt = Int.negSucc (~~~x).toNat := by
      rw [BitVec.toInt_eq_msb_cond, if_pos hm, BitVec.toNat_not]
      have := x.isLt
      omega
    have hbit : (~~~x).toNat.testBit k = (~~~x).getLsbD k := rfl
    rw [hneg]
    change (!(~~~x).toNat.testBit k) = _
    rw [hbit, BitVec.getLsbD_not]
    by_cases hk : k < w
    · simp [hk]
    · simp [hk]

theorem toInt_and_eq_land : (x &&& y).toInt = x.toInt.land y.toInt := by
  refine int_eq_of_testBit_eq fun k => ?_
  rw [Int.testBit_land, testBit_toInt, testBit_toInt, testBit_toInt, BitVec.getLsbD_and, BitVec.msb_and]
  split <;> rfl

theorem toInt_or_eq_lor : (x ||| y).toInt = x.toInt.lor y.toInt := by
  refine int_eq_of_testBit_eq fun k => ?_
  rw [Int.testBit_lor, testBit_toInt, testBit_toInt, testBit_toInt, BitVec.getLsbD_or, BitVec.msb_or]
  split <;> rfl

theorem toInt_xor_eq_xor : (x ^^^ y).toInt = x.toInt.xor y.toInt := by
  refine int_eq_of_testBit_eq fun k => ?_
  rw [Int.testBit_lxor, testBit_toInt, testBit_toInt, testBit_toInt, BitVec.getLsbD_xor, BitVec.msb_xor]
  split <;> rfl

theorem toInt_not_eq_neg (hw : 0 < w) : (~~~x).toInt = -x.toInt - 1 := by
  have hx := x.isLt
  rw [BitVec.toInt_eq_msb_cond, BitVec.toInt_eq_msb_cond, BitVec.msb_not, BitVec.toNat_not, decide_eq_true hw,
    Bool.true_and]
  cases x.msb with
  | false =>
    rw [if_pos (by rfl), if_neg Bool.false_ne_true]
    omega
  | true =>
    rw [if_neg (by decide), if_pos rfl]
    omega

theorem toInt_shiftLeft_eq_mul (n : ℕ) : (x <<< n).toInt = (x.toInt * 2 ^ n).bmod (2 ^ w) := by
  rw [BitVec.toInt_shiftLeft, Nat.shiftLeft_eq, Nat.cast_mul, Nat.cast_pow, Nat.cast_ofNat,
    BitVec.toInt_eq_toNat_bmod]
  exact (Int.bmod_mul_bmod (n := 2 ^ w) (x := x.toNat) (y := 2 ^ n)).symm

end Neutron
