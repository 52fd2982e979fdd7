import Neutron.IntegerText
import Neutron.JsonUnique

/-!
# Building and decoding JSON values

Objects and arrays from lists of members and elements, with the texts they are written as, and the
decoders that read them back: strings from their UTF-16 units, numbers from their digits, members by
their names.
-/

namespace Neutron.Json

open JsonParser RuntimeText

abbrev Tree := Node (List Piece)

abbrev Value := Node (List ℕ)

instance (p : Piece) : Decidable p.Ok :=
  match p with
  | .plain c => inferInstanceAs (Decidable (Unescaped c))
  | .escape _ => isTrue trivial
  | .unicode h1 h2 h3 h4 => inferInstanceAs (Decidable (IsHex h1 ∧ IsHex h2 ∧ IsHex h3 ∧ IsHex h4))

/-! ## Objects and arrays -/

def object (fields : List (String × Tree)) : Tree :=
  .obj (Members.ofList (fields.map fun f => (f.1.toList.map Piece.plain, f.2)))

def array (ts : List Tree) : Tree := .arr (Nodes.ofList ts)

def natural (n : ℕ) : Tree := .num (Nat.toDigits 10 n)

/-- A member as it is written. -/
def field (name : String) (value : List Char) : List Char := '"' :: (name.toList ++ '"' :: ':' :: value)

theorem compact_object (fields : List (String × Tree)) :
    compact (object fields) =
      '{' :: (List.intercalate [','] (fields.map fun f => field f.1 (compact f.2)) ++ ['}']) := by
  have hfield : ∀ f : String × Tree, quoted (text (f.1.toList.map Piece.plain)) ++ ':' :: compact f.2 =
      field f.1 (compact f.2) := by
    intro f
    rw [text_plain, quoted_append, field]
  rw [compact, object, Node.render, renders_members, List.map_map]
  exact congrArg (fun texts => '{' :: (List.intercalate [','] texts ++ ['}']))
    (List.map_congr_left fun f _ => hfield f)

theorem compact_array (ts : List Tree) :
    compact (array ts) = '[' :: (List.intercalate [','] (ts.map compact) ++ [']']) := by
  rw [compact, array, Node.render, renders_nodes]
  rfl

theorem compact_natural (n : ℕ) : compact (natural n) = Nat.toDigits 10 n := rfl

theorem wellFormed_object {fields : List (String × Tree)}
    (h : ∀ f ∈ fields, (∀ c ∈ f.1.toList, Unescaped c) ∧ WellFormed f.2) : WellFormed (object fields) := by
  induction fields with
  | nil => trivial
  | cons f fields ih =>
    obtain ⟨hf, hfields⟩ := List.forall_mem_cons.mp h
    exact ⟨plain_ok hf.1, hf.2, ih hfields⟩

theorem wellFormed_array {ts : List Tree} (h : ∀ t ∈ ts, WellFormed t) : WellFormed (array ts) := by
  induction ts with
  | nil => trivial
  | cons t ts ih =>
    obtain ⟨ht, hts⟩ := List.forall_mem_cons.mp h
    exact ⟨ht, ih hts⟩

theorem wellFormed_natural (n : ℕ) : WellFormed (natural n) := by
  have hnumber := isNumber_int n
  rw [formatInt_eq_toString, formatInt, if_neg (by omega), Int.natAbs_natCast] at hnumber
  exact hnumber

/-! ## Decoders -/

/-- The characters of a sequence of UTF-16 units, if it is well formed. -/
def fromUtf16 : List ℕ → Option (List Char)
  | [] => some []
  | [u] => if u < 0xD800 ∨ 0xDFFF < u then some [Char.ofNat u] else none
  | u :: v :: rest =>
    if u < 0xD800 ∨ 0xDFFF < u then (fromUtf16 (v :: rest)).map (Char.ofNat u :: ·)
    else if u < 0xDC00 ∧ 0xDC00 ≤ v ∧ v ≤ 0xDFFF then
      (fromUtf16 rest).map (Char.ofNat (0x10000 + 0x400 * (u - 0xD800) + (v - 0xDC00)) :: ·)
    else none

theorem fromUtf16_small {u : ℕ} (h : u < 0xD800 ∨ 0xDFFF < u) (rest : List ℕ) :
    fromUtf16 (u :: rest) = (fromUtf16 rest).map (Char.ofNat u :: ·) := by
  cases rest with
  | nil => exact if_pos h
  | cons v rest => rw [fromUtf16, if_pos h]

theorem fromUtf16_append (c : Char) (rest : List ℕ) :
    fromUtf16 (utf16 c ++ rest) = (fromUtf16 rest).map (c :: ·) := by
  have hvalid : c.toNat < 0xD800 ∨ 0xDFFF < c.toNat ∧ c.toNat < 0x110000 := c.valid
  rw [utf16]
  by_cases hsmall : c.toNat < 0x10000
  · rw [if_pos hsmall, List.singleton_append, fromUtf16_small (hvalid.imp_right And.left), Char.ofNat_toNat]
  · have hvalue : 0x10000 + 0x400 * (0xD800 + (c.toNat - 0x10000) / 0x400 - 0xD800) +
        (0xDC00 + (c.toNat - 0x10000) % 0x400 - 0xDC00) = c.toNat := by omega
    rw [if_neg hsmall, List.cons_append, List.singleton_append, fromUtf16, if_neg (by omega), if_pos (by omega),
      hvalue, Char.ofNat_toNat]

theorem fromUtf16_utf16 (s : List Char) : fromUtf16 (s.flatMap utf16) = some s := by
  induction s with
  | nil => rfl
  | cons c s ih => rw [List.flatMap_cons, fromUtf16_append, ih, Option.map_some]

def Node.string? : Value → Option (List Char)
  | .str us => fromUtf16 us
  | _ => none

def Node.natural? : Value → Option ℕ
  | .num digits => decimal digits
  | _ => none

def Node.bool? : Value → Option Bool
  | .bool b => some b
  | _ => none

section

variable {α : Type}

def Nodes.each (f : Value → Option α) : Nodes (List ℕ) → Option (List α)
  | .nil => some []
  | .cons t ts => (f t).bind fun a => (ts.each f).map (a :: ·)

def Node.array? (f : Value → Option α) : Value → Option (List α)
  | .arr ts => ts.each f
  | _ => none

/-- The first member with a name. -/
def Members.named (name : String) : Members (List ℕ) → Option Value
  | .nil => none
  | .cons k t ms => if k = name.toList.flatMap utf16 then some t else ms.named name

def Node.member? (name : String) : Value → Option Value
  | .obj ms => ms.named name
  | _ => none

/-- A member that has to be there. -/
def Node.required (name : String) (f : Value → Option α) (v : Value) : Option α := (v.member? name).bind f

/-- A member that may be left out. -/
def Node.optional (name : String) (f : Value → Option α) (v : Value) : Option (Option α) :=
  match v.member? name with
  | none => some none
  | some t => (f t).map some

/-! ## What is built is decoded -/

theorem required_of_member {name : String} {f : Value → Option α} {v t : Value} {a : α}
    (h : v.member? name = some t) (hf : f t = some a) : v.required name f = some a := by
  rw [Node.required, h, Option.bind_some, hf]

theorem optional_of_member {β : Type} {name : String} {f : Value → Option β} {v : Value} {o : Option α}
    {g : α → Tree} {r : α → β} (h : v.member? name = o.map fun a => (g a).value)
    (hf : ∀ a, f (g a).value = some (r a)) : v.optional name f = some (o.map r) := by
  rw [Node.optional, h]
  cases o with
  | none => rfl
  | some a => exact congrArg (Option.map some) (hf a)

theorem member?_object (name : String) (fields : List (String × Tree)) :
    (object fields).value.member? name = (fields.find? (·.1 = name)).map (·.2.value) := by
  induction fields with
  | nil => rfl
  | cons f fields ih =>
    have hunits : units (f.1.toList.map Piece.plain) = f.1.toList.flatMap utf16 := by
      rw [units, List.flatMap_map]
      rfl
    change (if units (f.1.toList.map Piece.plain) = name.toList.flatMap utf16 then some f.2.value
      else (object fields).value.member? name) = _
    rw [hunits, ih]
    by_cases hname : f.1 = name
    · rw [if_pos (by rw [hname]), List.find?_cons_of_pos (by simpa using hname), Option.map_some]
    · rw [if_neg fun h => hname (String.toList_inj.mp (utf16_inj h)), List.find?_cons_of_neg (by simpa using hname)]

theorem each_ofList {β : Type} (f : Value → Option β) (g : α → Tree) (h : α → β)
    (hf : ∀ a, f (g a).value = some (h a)) (xs : List α) : (array (xs.map g)).value.array? f = some (xs.map h) := by
  induction xs with
  | nil => rfl
  | cons a xs ih =>
    change ((f (g a).value).bind fun b => ((array (xs.map g)).value.array? f).map (b :: ·)) = _
    rw [hf, ih]
    rfl

theorem natural?_natural (n : ℕ) : (natural n).value.natural? = some n := decimal_toDigits n

theorem string?_str {ps : List Piece} {s : List Char} (h : units ps = s.flatMap utf16) :
    (Node.str ps).value.string? = some s := by
  change fromUtf16 (units ps) = some s
  rw [h, fromUtf16_utf16]

end

end Neutron.Json
