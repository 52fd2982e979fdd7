import Mathlib.Data.FinEnum
import Mathlib.Data.List.TakeWhile
import Mathlib.Tactic.Common

/-!
# Request messages of HTTP/1.1

A reader of one request: a request line, field lines up to an empty line, and as many bytes of content as the
fields announce. A message written from its components reads back as these components if and only if the method is a
token, the target holds neither blanks nor controls, the field values hold no controls and the announced length is
the length of the content.
-/

namespace Neutron.Http11

abbrev Bytes := List UInt8

def space : UInt8 := 32
def colon : UInt8 := 58
def cr : UInt8 := 13
def lf : UInt8 := 10

/-- The letters, digits and marks a token is made of. -/
def isTokenByte (b : UInt8) : Bool :=
  let n := b.toNat
  (48 ≤ n && n ≤ 57) || (65 ≤ n && n ≤ 90) || (97 ≤ n && n ≤ 122) ||
    [33, 35, 36, 37, 38, 39, 42, 43, 45, 46, 94, 95, 96, 124, 126].contains n

def isTargetByte (b : UInt8) : Bool := 32 < b.toNat && b.toNat ≠ 127

def isBlank (b : UInt8) : Bool := b = 32 || b = 9

/-- Visible bytes, bytes above the ASCII range, and blanks. -/
def isFieldByte (b : UInt8) : Bool := isBlank b || isTargetByte b

def IsToken (s : Bytes) : Prop := s ≠ [] ∧ ∀ b ∈ s, isTokenByte b = true

def IsTarget (s : Bytes) : Prop := s ≠ [] ∧ ∀ b ∈ s, isTargetByte b = true

def IsFieldText (s : Bytes) : Prop := ∀ b ∈ s, isFieldByte b = true

instance (s : Bytes) : Decidable (IsFieldText s) := List.decidableBAll (fun b => isFieldByte b = true) s

instance (s : Bytes) : Decidable (IsToken s) :=
  @instDecidableAnd _ _ _ (List.decidableBAll (fun b => isTokenByte b = true) s)

instance (s : Bytes) : Decidable (IsTarget s) :=
  @instDecidableAnd _ _ _ (List.decidableBAll (fun b => isTargetByte b = true) s)

/-! ## Reading -/

/-- The text before the first separator, and what comes after it. -/
def cut (sep : UInt8) : Bytes → Option (Bytes × Bytes)
  | [] => none
  | b :: s => if b = sep then some ([], s) else (cut sep s).map fun p => (b :: p.1, p.2)

/-- A line up to the first carriage return with a line feed after it, and what comes after both. -/
def takeLine : Bytes → Option (Bytes × Bytes)
  | [] => none
  | [_] => none
  | b :: c :: s =>
      if b = cr ∧ c = lf then some ([], s) else (takeLine (c :: s)).map fun p => (b :: p.1, p.2)

def strip (s : Bytes) : Bytes := ((s.dropWhile isBlank).reverse.dropWhile isBlank).reverse

def version : Bytes := [72, 84, 84, 80, 47, 49, 46, 49]

def readRequestLine (line : Bytes) : Option (Bytes × Bytes) :=
  match cut space line with
  | none => none
  | some (method, rest) =>
      match cut space rest with
      | none => none
      | some (target, protocol) =>
          if IsToken method ∧ IsTarget target ∧ protocol = version then some (method, target) else none

def readField (line : Bytes) : Option (Bytes × Bytes) :=
  match cut colon line with
  | none => none
  | some (name, value) =>
      if IsToken name ∧ IsFieldText (strip value) then some (name, strip value) else none

def readFields : ℕ → Bytes → Option (List (Bytes × Bytes) × Bytes)
  | 0, _ => none
  | n + 1, s =>
      match takeLine s with
      | none => none
      | some ([], rest) => some ([], rest)
      | some (b :: line, rest) =>
          match readField (b :: line) with
          | none => none
          | some field => (readFields n rest).map fun p => (field :: p.1, p.2)

def lower (b : UInt8) : UInt8 := if 65 ≤ b.toNat ∧ b.toNat ≤ 90 then b + 32 else b

def contentLength : Bytes := [99, 111, 110, 116, 101, 110, 116, 45, 108, 101, 110, 103, 116, 104]

def transferEncoding : Bytes := [116, 114, 97, 110, 115, 102, 101, 114, 45, 101, 110, 99, 111, 100, 105, 110, 103]

def readDecimal (s : Bytes) : Option ℕ :=
  if s ≠ [] ∧ ∀ b ∈ s, 48 ≤ b.toNat ∧ b.toNat ≤ 57 then some (s.foldl (fun n b => 10 * n + (b.toNat - 48)) 0)
  else none

/-- The length of the content: none announced, or one length in decimals. -/
def announced (fields : List (Bytes × Bytes)) : Option ℕ :=
  let named := fun name => (fields.filter (fun f => f.1.map lower = name)).map Prod.snd
  if named transferEncoding ≠ [] then none
  else
    match named contentLength with
    | [] => some 0
    | [value] => readDecimal value
    | _ => none

structure Request where
  method : Bytes
  target : Bytes
  fields : List (Bytes × Bytes)
  content : Bytes
  deriving Repr, DecidableEq

/-- One request from the front of the bytes, and the bytes after it. -/
def readRequest (s : Bytes) : Option (Request × Bytes) :=
  match takeLine s with
  | none => none
  | some (line, afterLine) =>
      match readRequestLine line, readFields s.length afterLine with
      | some (method, target), some (fields, rest) =>
          match announced fields with
          | none => none
          | some n => if n ≤ rest.length then some (⟨method, target, fields, rest.take n⟩, rest.drop n) else none
      | _, _ => none

/-! ## Writing -/

def writeFields (fields : List (Bytes × Bytes)) : Bytes :=
  fields.flatMap fun f => f.1 ++ colon :: space :: f.2 ++ [cr, lf]

namespace Request

variable (r : Request)

def write : Bytes :=
  (r.method ++ space :: r.target ++ space :: version ++ [cr, lf]) ++ (writeFields r.fields ++ [cr, lf]) ++ r.content

/-- The request without the blanks around its field values. -/
def stripped : Request := { r with fields := r.fields.map fun f => (f.1, strip f.2) }

structure WellFormed : Prop where
  method : IsToken r.method
  target : IsTarget r.target
  names : ∀ f ∈ r.fields, IsToken f.1
  values : ∀ f ∈ r.fields, IsFieldText f.2
  content : announced r.stripped.fields = some r.content.length

end Request

/-! ## Decimals -/

/-- The bytes of the decimal digits of a number. -/
def writeDecimal (n : ℕ) : Bytes := (Nat.toDigits 10 n).map fun c => UInt8.ofNat c.toNat

theorem toNat_digit {c : Char} (hc : c.isDigit = true) :
    (UInt8.ofNat c.toNat).toNat = c.toNat ∧ 48 ≤ c.toNat ∧ c.toNat ≤ 57 := by
  have hrange : 48 ≤ c.toNat ∧ c.toNat ≤ 57 := by simpa [Char.isDigit, UInt32.le_iff_toNat_le] using hc
  refine ⟨?_, hrange⟩
  rw [UInt8.toNat_ofNat', Nat.mod_eq_of_lt (by omega)]

theorem foldl_digits {s : List Char} (hs : ∀ c ∈ s, c.isDigit = true) (n : ℕ) :
    (s.map fun c => UInt8.ofNat c.toNat).foldl (fun n b => 10 * n + (b.toNat - 48)) n = Nat.ofDigitChars 10 s n := by
  induction s generalizing n with
  | nil => rfl
  | cons c s ih =>
      have hrest := ih (fun d hd => hs d (List.mem_cons_of_mem _ hd)) (10 * n + (c.toNat - 48))
      rw [List.map_cons, List.foldl_cons, (toNat_digit (hs c List.mem_cons_self)).1, hrest, Nat.ofDigitChars_cons]
      rfl

theorem readDecimal_writeDecimal (n : ℕ) : readDecimal (writeDecimal n) = some n := by
  have hdigit : ∀ c ∈ Nat.toDigits 10 n, c.isDigit = true :=
    fun c hc => Nat.isDigit_of_mem_toDigits (by decide) (by decide) hc
  have hne : writeDecimal n ≠ [] := by
    rw [writeDecimal, Ne, List.map_eq_nil_iff]
    exact Nat.toDigits_ne_nil
  have hrange : ∀ b ∈ writeDecimal n, 48 ≤ b.toNat ∧ b.toNat ≤ 57 := by
    intro b hb
    obtain ⟨c, hc, rfl⟩ := List.mem_map.mp hb
    rw [(toNat_digit (hdigit c hc)).1]
    exact (toNat_digit (hdigit c hc)).2
  rw [readDecimal, if_pos ⟨hne, hrange⟩, writeDecimal, foldl_digits hdigit, Nat.ofDigitChars_ten_toDigits]

/-! ## Blanks -/

theorem IsFieldText.strip {s : Bytes} (h : IsFieldText s) : IsFieldText (strip s) := by
  intro b hb
  have hdrop := (List.dropWhile_suffix isBlank).subset (List.mem_reverse.mp hb)
  exact h b ((List.dropWhile_suffix isBlank).subset (List.mem_reverse.mp hdrop))

theorem mem_dropWhile_or {p : UInt8 → Bool} {s : Bytes} {b : UInt8} (hb : b ∈ s) :
    b ∈ s.dropWhile p ∨ p b = true := by
  induction s with
  | nil => cases hb
  | cons c s ih =>
      by_cases hc : p c = true
      · rw [List.dropWhile_cons_of_pos hc]
        rcases List.mem_cons.mp hb with rfl | hb
        · exact .inr hc
        · exact ih hb
      · rw [List.dropWhile_cons_of_neg hc]
        exact .inl hb

/-- Only blanks are cut off. -/
theorem isFieldText_of_strip {s : Bytes} (h : IsFieldText (strip s)) : IsFieldText s := by
  have hblank {b : UInt8} (hb : isBlank b = true) : isFieldByte b = true := by rw [isFieldByte, hb, Bool.true_or]
  intro b hb
  rcases mem_dropWhile_or (p := isBlank) hb with hb | hb
  · rcases mem_dropWhile_or (p := isBlank) (List.mem_reverse.mpr hb) with hb | hb
    · exact h b (List.mem_reverse.mpr hb)
    · exact hblank hb
  · exact hblank hb

theorem strip_space (s : Bytes) : strip (space :: s) = strip s := by
  rw [strip, List.dropWhile_cons_of_pos (by decide), strip]

/-! ## Reading what is written -/

theorem cut_append {sep : UInt8} {a : Bytes} (h : sep ∉ a) (s : Bytes) : cut sep (a ++ sep :: s) = some (a, s) := by
  induction a with
  | nil => rw [List.nil_append, cut, if_pos rfl]
  | cons b a ih =>
      have hb : b ≠ sep := fun heq => h (heq ▸ List.mem_cons_self)
      rw [List.cons_append, cut, if_neg hb, ih (fun hmem => h (List.mem_cons_of_mem _ hmem)), Option.map_some]

theorem takeLine_append {line : Bytes} (h : cr ∉ line) (rest : Bytes) :
    takeLine (line ++ cr :: lf :: rest) = some (line, rest) := by
  induction line with
  | nil => rw [List.nil_append, takeLine, if_pos ⟨rfl, rfl⟩]
  | cons b line ih =>
      have hb : b ≠ cr := fun heq => h (heq ▸ List.mem_cons_self)
      have hrest := ih (fun hmem => h (List.mem_cons_of_mem _ hmem))
      obtain ⟨c, s, hcons⟩ : ∃ c s, line ++ cr :: lf :: rest = c :: s := by cases line <;> exact ⟨_, _, rfl⟩
      rw [hcons] at hrest
      rw [List.cons_append, hcons, takeLine, if_neg (fun hand => hb hand.1), hrest, Option.map_some]

theorem not_mem_of_bytes {p : UInt8 → Bool} {s : Bytes} {b : UInt8} (h : ∀ c ∈ s, p c = true) (hb : p b = false) :
    b ∉ s := fun hmem => Bool.false_ne_true (hb.symm.trans (h b hmem))

theorem readRequestLine_write {method target : Bytes} (hm : IsToken method) (ht : IsTarget target) :
    readRequestLine (method ++ space :: target ++ space :: version) = some (method, target) := by
  have hmethod : cut space (method ++ space :: target ++ space :: version) =
      some (method, target ++ space :: version) := by
    rw [List.append_assoc, List.cons_append, cut_append (not_mem_of_bytes hm.2 (by decide))]
  have htarget : cut space (target ++ space :: version) = some (target, version) :=
    cut_append (not_mem_of_bytes ht.2 (by decide)) _
  simp only [readRequestLine, hmethod, htarget]
  exact if_pos ⟨hm, ht, trivial⟩

theorem readField_write {name value : Bytes} (hname : IsToken name) (hvalue : IsFieldText value) :
    readField (name ++ colon :: space :: value) = some (name, strip value) := by
  have hcut : cut colon (name ++ colon :: space :: value) = some (name, space :: value) :=
    cut_append (not_mem_of_bytes hname.2 (by decide)) _
  simp only [readField, hcut, strip_space, if_pos (And.intro hname hvalue.strip)]

theorem cr_not_mem_field {name value : Bytes} (hname : IsToken name) (hvalue : IsFieldText value) :
    cr ∉ name ++ colon :: space :: value := by
  have hn := not_mem_of_bytes (b := cr) hname.2 (by decide)
  have hv := not_mem_of_bytes (b := cr) hvalue (by decide)
  rw [List.mem_append, List.mem_cons, List.mem_cons]
  rintro (h | h | h | h)
  · exact hn h
  · exact absurd h (by decide)
  · exact absurd h (by decide)
  · exact hv h

theorem readFields_write {fields : List (Bytes × Bytes)} (hnames : ∀ f ∈ fields, IsToken f.1)
    (hvalues : ∀ f ∈ fields, IsFieldText f.2) {n : ℕ} (hn : fields.length < n) (rest : Bytes) :
    readFields n (writeFields fields ++ cr :: lf :: rest) = some (fields.map (fun f => (f.1, strip f.2)), rest) := by
  induction fields generalizing n with
  | nil =>
      obtain ⟨n, rfl⟩ : ∃ m, n = m + 1 := ⟨n - 1, by simp at hn; omega⟩
      have hline : takeLine (cr :: lf :: rest) = some ([], rest) := takeLine_append List.not_mem_nil rest
      simp only [writeFields, List.flatMap_nil, List.nil_append, readFields, hline, List.map_nil]
  | cons f fields ih =>
      obtain ⟨n, rfl⟩ : ∃ m, n = m + 1 := ⟨n - 1, by simp at hn; omega⟩
      have hname := hnames f List.mem_cons_self
      have hvalue := hvalues f List.mem_cons_self
      have hrest := ih (fun g hg => hnames g (List.mem_cons_of_mem _ hg))
        (fun g hg => hvalues g (List.mem_cons_of_mem _ hg)) (n := n) (by simpa using hn)
      have hline : takeLine (writeFields (f :: fields) ++ cr :: lf :: rest) =
          some (f.1 ++ colon :: space :: f.2, writeFields fields ++ cr :: lf :: rest) := by
        have hsplit : writeFields (f :: fields) ++ cr :: lf :: rest =
            (f.1 ++ colon :: space :: f.2) ++ cr :: lf :: (writeFields fields ++ cr :: lf :: rest) := by
          simp only [writeFields, List.flatMap_cons, List.append_assoc, List.cons_append, List.nil_append]
        rw [hsplit, takeLine_append (cr_not_mem_field hname hvalue)]
      obtain ⟨b, line, hcons⟩ : ∃ b line, f.1 ++ colon :: space :: f.2 = b :: line := by
        cases hf : f.1 with
        | nil => exact absurd hf hname.1
        | cons b s => exact ⟨b, _, rfl⟩
      have hfield := readField_write hname hvalue
      rw [hcons] at hline hfield
      simp only [readFields, hline, hfield, hrest, Option.map_some, List.map_cons]

theorem length_le_writeFields (fields : List (Bytes × Bytes)) : fields.length ≤ (writeFields fields).length := by
  induction fields with
  | nil => exact Nat.zero_le _
  | cons f fields ih =>
      have hcons : (writeFields (f :: fields)).length =
          (f.1 ++ colon :: space :: f.2 ++ [cr, lf]).length + (writeFields fields).length := by
        simp only [writeFields, List.flatMap_cons, List.length_append]
      rw [hcons, List.length_cons]
      simp only [List.length_append, List.length_cons, List.length_nil]
      omega

variable {r : Request}

theorem readRequest_write (h : r.WellFormed) (rest : Bytes) :
    readRequest (r.write ++ rest) = some (r.stripped, rest) := by
  have hcr : cr ∉ r.method ++ space :: r.target ++ space :: version := by
    have hm := not_mem_of_bytes (b := cr) h.method.2 (by decide)
    have ht := not_mem_of_bytes (b := cr) h.target.2 (by decide)
    rw [List.mem_append, List.mem_append, List.mem_cons]
    rintro ((hmem | hmem | hmem) | hmem)
    · exact hm hmem
    · exact absurd hmem (by decide)
    · exact ht hmem
    · exact absurd hmem (by decide)
  have hsplit : r.write ++ rest = (r.method ++ space :: r.target ++ space :: version) ++ cr :: lf ::
      (writeFields r.fields ++ cr :: lf :: (r.content ++ rest)) := by
    simp only [Request.write, List.append_assoc, List.cons_append, List.nil_append]
  have hline := takeLine_append hcr (writeFields r.fields ++ cr :: lf :: (r.content ++ rest))
  have hlength : r.fields.length < (r.write ++ rest).length := by
    have hle := length_le_writeFields r.fields
    rw [hsplit]
    simp only [List.length_append, List.length_cons]
    omega
  have hfields := readFields_write h.names h.values hlength (r.content ++ rest)
  rw [← hsplit] at hline
  have hcontent : announced (r.fields.map fun f => (f.1, strip f.2)) = some r.content.length := h.content
  simp only [readRequest, hline, readRequestLine_write h.method h.target, hfields, hcontent]
  rw [if_pos (by rw [List.length_append]; omega), List.take_left, List.drop_left]
  rfl

/-! ## What is read is well formed -/

theorem readRequestLine_sound {line method target : Bytes} (h : readRequestLine line = some (method, target)) :
    IsToken method ∧ IsTarget target := by
  unfold readRequestLine at h
  split at h
  · cases h
  · split at h
    · cases h
    · split at h
      · rename_i hok
        cases h
        exact ⟨hok.1, hok.2.1⟩
      · cases h

theorem readField_sound {line : Bytes} {f : Bytes × Bytes} (h : readField line = some f) :
    IsToken f.1 ∧ IsFieldText f.2 := by
  unfold readField at h
  split at h
  · cases h
  · split at h
    · rename_i hok
      cases h
      exact hok
    · cases h

theorem readFields_sound {n : ℕ} {s rest : Bytes} {fields : List (Bytes × Bytes)}
    (h : readFields n s = some (fields, rest)) : ∀ f ∈ fields, IsToken f.1 ∧ IsFieldText f.2 := by
  induction n generalizing s fields with
  | zero => cases h
  | succ n ih =>
      rw [readFields] at h
      split at h
      · cases h
      · cases h
        exact fun f hf => absurd hf List.not_mem_nil
      · split at h
        · cases h
        · rename_i field hfield
          obtain ⟨p, hp, heq⟩ := Option.map_eq_some_iff.mp h
          cases heq
          intro f hf
          rcases List.mem_cons.mp hf with rfl | hf
          · exact readField_sound hfield
          · exact ih hp f hf

theorem readRequest_sound {s rest : Bytes} (h : readRequest s = some (r, rest)) :
    IsToken r.method ∧ IsTarget r.target ∧ (∀ f ∈ r.fields, IsToken f.1 ∧ IsFieldText f.2) ∧
      announced r.fields = some r.content.length := by
  unfold readRequest at h
  split at h
  · cases h
  · split at h
    · rename_i hline hfields
      split at h
      · cases h
      · rename_i n hn
        split at h
        · rename_i hle
          cases h
          obtain ⟨hm, ht⟩ := readRequestLine_sound hline
          refine ⟨hm, ht, readFields_sound hfields, ?_⟩
          rw [List.length_take, min_eq_left hle]
          exact hn
        · cases h
    · cases h

/-- A written request is read back if and only if its components are well formed. -/
theorem readRequest_write_iff (rest : Bytes) :
    readRequest (r.write ++ rest) = some (r.stripped, rest) ↔ r.WellFormed := by
  constructor
  · intro h
    obtain ⟨hm, ht, hfields, hcontent⟩ := readRequest_sound h
    have hfield : ∀ f ∈ r.fields, IsToken f.1 ∧ IsFieldText (strip f.2) := by
      intro f hf
      exact hfields (f.1, strip f.2) (List.mem_map_of_mem hf)
    exact ⟨hm, ht, fun f hf => (hfield f hf).1, fun f hf => isFieldText_of_strip (hfield f hf).2, hcontent⟩
  · intro h
    exact readRequest_write h rest

end Neutron.Http11
