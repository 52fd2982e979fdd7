import Neutron.RuntimeText

/-!
# Integers as text

The decimal text of an integer, which formatting writes and `str::parse` reads back.
-/

namespace Neutron.RuntimeText

/-- The text `{}` writes for an integer. -/
def formatInt (n : Int) : List Char := if n < 0 then '-' :: Nat.toDigits 10 n.natAbs else Nat.toDigits 10 n.natAbs

theorem formatInt_eq_toString (n : Int) : (toString n).toList = formatInt n := by
  rw [Int.toString_eq_repr, Int.repr_eq_if, formatInt]
  by_cases hn : n < 0
  · have hvalue : (-n).toNat = n.natAbs := by omega
    rw [if_pos hn, if_neg (by omega), String.toList_append, Nat.toList_repr, hvalue]
    rfl
  · have hvalue : n.toNat = n.natAbs := by omega
    rw [if_neg hn, if_pos (by omega), Nat.toList_repr, hvalue]

theorem isDigit_of_mem_digits {n : ℕ} {c : Char} (hc : c ∈ Nat.toDigits 10 n) : c.isDigit = true :=
  Nat.isDigit_of_mem_toDigits (by decide) (by decide) hc

theorem decimal_toDigits (n : ℕ) : decimal (Nat.toDigits 10 n) = some n := by
  have hall : (Nat.toDigits 10 n).all Char.isDigit = true :=
    List.all_eq_true.mpr fun c hc => isDigit_of_mem_digits hc
  rw [decimal, if_pos ⟨Nat.toDigits_ne_nil, hall⟩]
  exact congrArg some Nat.ofDigitChars_ten_toDigits

def InRange (n : Int) : Prop := -(2 : Int) ^ 63 ≤ n ∧ n < (2 : Int) ^ 63

theorem filter_inRange {n : Int} (h : InRange n) :
    (some n).filter (fun m => decide (-(2 : Int) ^ 63 ≤ m ∧ m < (2 : Int) ^ 63)) = some n := by
  unfold InRange at h
  rw [Option.filter_some, if_pos (decide_eq_true h)]

/-- The first digit is no sign. -/
theorem parseI64_toDigits {n : ℕ} (h : InRange n) : parseI64 (Nat.toDigits 10 n) = some (n : Int) := by
  have hdecimal := decimal_toDigits n
  have hdigit : ∀ c ∈ Nat.toDigits 10 n, c.isDigit = true := fun c hc => isDigit_of_mem_digits hc
  unfold parseI64
  cases hdigits : Nat.toDigits 10 n with
  | nil => exact absurd hdigits Nat.toDigits_ne_nil
  | cons c cs =>
    rw [hdigits] at hdecimal hdigit
    have hc := hdigit c List.mem_cons_self
    split
    · rename_i heq
      rw [(List.cons.inj heq).1] at hc
      exact absurd hc (by decide)
    · rename_i heq
      rw [(List.cons.inj heq).1] at hc
      exact absurd hc (by decide)
    · rw [hdecimal]
      exact filter_inRange h

theorem parseI64_formatInt {n : Int} (h : InRange n) : parseI64 (formatInt n) = some n := by
  rw [formatInt]
  by_cases hn : n < 0
  · have hvalue : -((n.natAbs : ℕ) : Int) = n := by omega
    rw [if_pos hn]
    unfold parseI64
    simp only [decimal_toDigits]
    change (some (-((n.natAbs : ℕ) : Int))).filter _ = some n
    rw [hvalue]
    exact filter_inRange h
  · have hvalue : ((n.natAbs : ℕ) : Int) = n := by omega
    rw [if_neg hn, parseI64_toDigits (by rw [hvalue]; exact h), hvalue]

end Neutron.RuntimeText
