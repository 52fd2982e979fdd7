import Neutron.ArchiveBounds

/-!
# Where the zip reader looks for the end record

The comment of the end record is at most 65535 bytes, so the record starts in the last 65557 bytes. The
reader tries offsets up to 65535 from the start of the file instead. It finds the record of every file
whose body is not longer than that, and of no other.
-/

namespace Neutron.Archive

variable {body eocd comment : List UInt8}

def eocdSignature : List UInt8 := [0x50, 0x4b, 0x05, 0x06]

/-- The signature is at offset `i`. -/
def SignedAt (data : List UInt8) (i : ℕ) : Prop := (data.drop i).take 4 = eocdSignature

theorem byteAt_drop (data : List UInt8) (i k : ℕ) : byteAt (data.drop i) k = byteAt data (i + k) := by
  rw [byteAt, byteAt, List.getD_eq_getElem?_getD, List.getD_eq_getElem?_getD, List.getElem?_drop]

theorem u32At_eq_signature_iff {data : List UInt8} {i : ℕ} (h : i + 4 ≤ data.length) :
    u32At data i = 0x06054b50 ↔ SignedAt data i := by
  have hlength : 4 ≤ (data.drop i).length := by
    rw [List.length_drop]
    omega
  rw [u32At, ← byteAt_drop data i 1, ← byteAt_drop data i 2, ← byteAt_drop data i 3, ← Nat.add_zero i,
    ← byteAt_drop data i 0, Nat.add_zero, SignedAt]
  generalize data.drop i = l at hlength ⊢
  rcases l with _ | ⟨b0, _ | ⟨b1, _ | ⟨b2, _ | ⟨b3, rest⟩⟩⟩⟩
  · exact absurd hlength (by simp)
  · exact absurd hlength (by simp)
  · exact absurd hlength (by simp)
  · exact absurd hlength (by simp)
  · change b0.toNat + 256 * b1.toNat + 65536 * b2.toNat + 16777216 * b3.toNat = _ ↔ [b0, b1, b2, b3] = _
    have h0 := b0.toNat_lt
    have h1 := b1.toNat_lt
    have h2 := b2.toNat_lt
    have h3 := b3.toNat_lt
    simp only [eocdSignature, List.cons.injEq, ← UInt8.toNat_inj, and_true]
    change _ ↔ b0.toNat = 80 ∧ b1.toNat = 75 ∧ b2.toNat = 5 ∧ b3.toNat = 6
    omega

/-- A whole archive: its end record is signed, and no signature starts after that one. -/
structure Ends (body eocd comment : List UInt8) : Prop where
  length_eq : eocd.length = 22
  signed : eocd.take 4 = eocdSignature
  comment_eq : u16At eocd 20 = comment.length
  last : ∀ i, body.length < i → ¬ SignedAt (body ++ eocd ++ comment) i

theorem Ends.signedAt (h : Ends body eocd comment) : SignedAt (body ++ eocd ++ comment) body.length := by
  rw [SignedAt, List.append_assoc, List.drop_left, List.take_append_of_le_length (by rw [h.length_eq]; decide)]
  exact h.signed

theorem Ends.eocdAt_eq (h : Ends body eocd comment) (i : ℕ) (hi : body.length ≤ i) :
    eocdAt (body ++ eocd ++ comment) i = decide (i = body.length) := by
  have hlength : (body ++ eocd ++ comment).length = body.length + 22 + comment.length := by
    rw [List.length_append, List.length_append, h.length_eq]
  rw [eocdAt]
  by_cases hroom : i + 22 ≤ (body ++ eocd ++ comment).length
  · rw [decide_eq_true hroom, Bool.true_and, Bool.eq_iff_iff, beq_iff_eq, decide_eq_true_iff,
      u32At_eq_signature_iff (by omega)]
    constructor
    · intro hsigned
      by_contra hne
      exact h.last i (by omega) hsigned
    · rintro rfl
      exact h.signedAt
  · rw [decide_eq_false hroom, decide_eq_false (by omega)]
    rfl

/-- The record after a body the search covers is found. -/
theorem Ends.findEocd_of_le (h : Ends body eocd comment) (hbody : body.length ≤ 65535) :
    findEocd (body ++ eocd ++ comment) = .ok (some body.length) := by
  have hlength : (body ++ eocd ++ comment).length = body.length + 22 + comment.length := by
    rw [List.length_append, List.length_append, h.length_eq]
  have hsearched : body.length < searched (body ++ eocd ++ comment) := by
    rw [searched]
    omega
  have hat : eocdAt (body ++ eocd ++ comment) body.length = true := by
    rw [h.eocdAt_eq _ (Nat.le_refl _), decide_eq_true rfl]
  rcases findEocd_ok (body ++ eocd ++ comment) with ⟨-, hnone⟩ | ⟨i, hi, hsome, hati, hlater⟩
  · exact absurd (hat.symm.trans (hnone _ hsearched)) (by decide)
  · rw [hsome]
    rcases Nat.lt_trichotomy i body.length with hlt | rfl | hgt
    · exact absurd (hat.symm.trans (hlater _ hsearched hlt)) (by decide)
    · rfl
    · rw [h.eocdAt_eq i (Nat.le_of_lt hgt), decide_eq_true_iff] at hati
      omega

/-- The search finds the end record if and only if the body is not longer than a comment may be. -/
theorem findEocd_finds_iff (h : Ends body eocd comment) :
    findEocd (body ++ eocd ++ comment) = .ok (some body.length) ↔ body.length ≤ 65535 :=
  ⟨fun hfound => (room_of_findEocd hfound).2, h.findEocd_of_le⟩

/-- An end record without entries, before a comment of the given length. -/
def emptyEocd (commentLength : UInt8) : List UInt8 := eocdSignature ++ List.replicate 16 0 ++ [commentLength, 0]

theorem Ends.of_eocd (body : List UInt8) (hlength : eocd.length = 22) (hsigned : eocd.take 4 = eocdSignature)
    (hcomment : u16At eocd 20 = comment.length)
    (honce : ∀ k < 22 + comment.length, ¬ SignedAt (eocd ++ comment) (k + 1)) : Ends body eocd comment where
  length_eq := hlength
  signed := hsigned
  comment_eq := hcomment
  last := by
    intro i hi hsignedAt
    obtain ⟨k, rfl⟩ := Nat.exists_eq_add_of_lt hi
    rw [SignedAt, List.append_assoc, Nat.add_assoc, List.drop_append, List.drop_eq_nil_of_le (by omega),
      List.nil_append, Nat.add_sub_cancel_left] at hsignedAt
    by_cases hk : k < 22 + comment.length
    · exact honce k hk hsignedAt
    · rw [List.drop_eq_nil_of_le (by rw [List.length_append]; omega)] at hsignedAt
      exact absurd hsignedAt (by decide)

instance (data : List UInt8) (i : ℕ) : Decidable (SignedAt data i) :=
  inferInstanceAs (Decidable ((data.drop i).take 4 = eocdSignature))

theorem ends_replicate (n : ℕ) : Ends (List.replicate n 0) (emptyEocd 0) [] :=
  .of_eocd _ (by decide) (by decide) (by decide) (by decide)

/-- Three bytes before the record, and the comment `zip`. -/
theorem findEocd_finds_comment :
    findEocd (List.replicate 3 0 ++ emptyEocd 3 ++ [0x7a, 0x69, 0x70]) = .ok (some 3) :=
  (findEocd_finds_iff (.of_eocd _ (by decide) (by decide) (by decide) (by decide))).mpr (by decide)

/-- The record after a body of 65536 bytes is not found. -/
theorem findEocd_misses : ¬ ∀ body eocd comment, Ends body eocd comment →
    findEocd (body ++ eocd ++ comment) = .ok (some body.length) := by
  intro h
  have hfound := h _ _ _ (ends_replicate 65536)
  have hle := (room_of_findEocd hfound).2
  rw [List.length_replicate] at hle
  omega

end Neutron.Archive
