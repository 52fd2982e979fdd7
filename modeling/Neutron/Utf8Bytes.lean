import Mathlib.Data.List.Basic
import Mathlib.Tactic.Common

/-!
# Text as bytes

The UTF-8 bytes of a text, the text of bytes, and bytes read one by one as characters. Reading the bytes
of a text as characters gives the text back if and only if it is ASCII.
-/

namespace Neutron

def utf8 (s : List Char) : List UInt8 := s.flatMap String.utf8EncodeChar

/-- `std::str::from_utf8(..).ok()` -/
def fromUtf8? (bytes : List UInt8) : Option (List Char) :=
  (ByteArray.mk bytes.toArray).utf8Decode?.map Array.toList

/-- `b as char` -/
def byteChar (b : UInt8) : Char := Char.ofNat b.toNat

/-- The bytes of a text, each taken for a character. -/
def bytesAsChars (s : List Char) : List Char := (utf8 s).map byteChar

def IsAscii (c : Char) : Prop := c.toNat < 128

instance (c : Char) : Decidable (IsAscii c) := inferInstanceAs (Decidable (c.toNat < 128))

@[simp] theorem utf8_nil : utf8 [] = [] := rfl

theorem utf8_cons (c : Char) (s : List Char) : utf8 (c :: s) = String.utf8EncodeChar c ++ utf8 s :=
  List.flatMap_cons

theorem utf8_append (s t : List Char) : utf8 (s ++ t) = utf8 s ++ utf8 t := List.flatMap_append

theorem fromUtf8?_utf8 (s : List Char) : fromUtf8? (utf8 s) = some s := by
  have hbytes : ByteArray.mk (utf8 s).toArray = s.utf8Encode := by
    apply ByteArray.ext
    apply Array.toList_inj.mp
    rw [List.utf8Encode, List.toList_data_toByteArray, utf8]
  rw [fromUtf8?, hbytes, List.utf8Decode?_utf8Encode, Option.map_some]

theorem utf8EncodeChar_ascii {c : Char} (h : IsAscii c) : String.utf8EncodeChar c = [UInt8.ofNat c.toNat] := by
  have hle : c.val.toNat ≤ 127 := Nat.le_of_lt_succ h
  rw [String.utf8EncodeChar]
  exact if_pos hle

theorem utf8_ascii_cons {c : Char} (h : IsAscii c) (s : List Char) : utf8 (c :: s) = UInt8.ofNat c.toNat :: utf8 s := by
  rw [utf8_cons, utf8EncodeChar_ascii h]
  rfl

/-- A character that is not ASCII is a leading byte and at least one more, all of them not ASCII. -/
theorem utf8EncodeChar_other {c : Char} (h : ¬ IsAscii c) :
    ∃ b b' rest, String.utf8EncodeChar c = b :: b' :: rest ∧ ∀ x ∈ b :: b' :: rest, 128 ≤ x.toNat := by
  have hgt : ¬ c.val.toNat ≤ 127 := fun hle => h (Nat.lt_succ_of_le hle)
  have hbyte : ∀ n k, 128 ≤ k → k + n < 256 → 128 ≤ (UInt8.ofNat (n + k)).toNat := by
    intro n k hk hn
    rw [UInt8.toNat_ofNat', Nat.mod_eq_of_lt (by omega)]
    omega
  rw [String.utf8EncodeChar]
  rw [if_neg hgt]
  split
  · refine ⟨_, _, [], rfl, fun x hx => ?_⟩
    simp only [List.mem_cons, List.not_mem_nil, or_false] at hx
    rcases hx with rfl | rfl <;> exact hbyte _ _ (by decide) (by omega)
  · split
    · refine ⟨_, _, _, rfl, fun x hx => ?_⟩
      simp only [List.mem_cons, List.not_mem_nil, or_false] at hx
      rcases hx with rfl | rfl | rfl <;> exact hbyte _ _ (by decide) (by omega)
    · refine ⟨_, _, _, rfl, fun x hx => ?_⟩
      simp only [List.mem_cons, List.not_mem_nil, or_false] at hx
      rcases hx with rfl | rfl | rfl | rfl <;> exact hbyte _ _ (by decide) (by omega)

theorem toNat_byteChar (b : UInt8) : (byteChar b).toNat = b.toNat := by
  have hb := b.toNat_lt
  have hvalid : b.toNat.isValidChar := Or.inl (by omega)
  rw [byteChar, Char.ofNat, dif_pos hvalid]
  exact UInt32.toNat_ofNatLT ..

theorem byteChar_ascii {c : Char} (h : IsAscii c) : byteChar (UInt8.ofNat c.toNat) = c := by
  have hlt : c.toNat < 128 := h
  rw [byteChar, UInt8.toNat_ofNat', Nat.mod_eq_of_lt (by omega), Char.ofNat_toNat]

@[simp] theorem bytesAsChars_nil : bytesAsChars [] = [] := rfl

theorem bytesAsChars_append (s t : List Char) : bytesAsChars (s ++ t) = bytesAsChars s ++ bytesAsChars t := by
  rw [bytesAsChars, utf8_append, List.map_append]
  rfl

theorem bytesAsChars_ascii_cons {c : Char} (h : IsAscii c) (s : List Char) :
    bytesAsChars (c :: s) = c :: bytesAsChars s := by
  rw [bytesAsChars, utf8_ascii_cons h, List.map_cons, byteChar_ascii h]
  rfl

theorem bytesAsChars_other_cons {c : Char} (h : ¬ IsAscii c) (s : List Char) :
    ∃ d d' rest, bytesAsChars (c :: s) = d :: d' :: (rest ++ bytesAsChars s) ∧ ∀ x ∈ d :: d' :: rest, ¬ IsAscii x := by
  obtain ⟨b, b', rest, hbytes, hhigh⟩ := utf8EncodeChar_other h
  refine ⟨byteChar b, byteChar b', rest.map byteChar, ?_, fun x hx => ?_⟩
  · rw [bytesAsChars, utf8_cons, hbytes, List.map_append]
    rfl
  · rw [← List.map_cons, ← List.map_cons] at hx
    obtain ⟨y, hy, rfl⟩ := List.mem_map.mp hx
    rw [IsAscii, toNat_byteChar]
    have hle := hhigh y hy
    omega

theorem length_le_bytesAsChars (s : List Char) : s.length ≤ (bytesAsChars s).length := by
  induction s with
  | nil => exact Nat.le_refl 0
  | cons c s ih =>
    by_cases hc : IsAscii c
    · rw [bytesAsChars_ascii_cons hc]
      exact Nat.succ_le_succ ih
    · obtain ⟨d, d', rest, heq, -⟩ := bytesAsChars_other_cons hc s
      rw [heq, List.length_cons, List.length_cons, List.length_cons, List.length_append]
      omega

theorem bytesAsChars_eq_self_iff {s : List Char} : bytesAsChars s = s ↔ ∀ c ∈ s, IsAscii c := by
  induction s with
  | nil => exact ⟨fun _ c hc => absurd hc List.not_mem_nil, fun _ => rfl⟩
  | cons c s ih =>
    by_cases hc : IsAscii c
    · rw [bytesAsChars_ascii_cons hc, List.forall_mem_cons, List.cons.injEq, ih]
      exact ⟨fun h => ⟨hc, h.2⟩, fun h => ⟨rfl, h.2⟩⟩
    · refine ⟨fun h => ?_, fun h => absurd (h c List.mem_cons_self) hc⟩
      obtain ⟨d, d', rest, heq, -⟩ := bytesAsChars_other_cons hc s
      have hlength := congrArg List.length (heq.symm.trans h)
      have hle := length_le_bytesAsChars s
      rw [List.length_cons, List.length_cons, List.length_cons, List.length_append] at hlength
      omega

end Neutron
