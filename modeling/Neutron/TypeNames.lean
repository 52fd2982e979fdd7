import Mathlib
import Neutron.Syntax

/-!
# Names of applied types

The parser writes an applied type `base<a, b>` into one name, with the source text of its
arguments between the brackets; the generics pass splits the name again and parses each
argument. Texts are lists of characters and tokens keep their lexeme only, since types are
compared up to spans.
-/

namespace Neutron.TypeNames

abbrev Text := List Char

/-- A literal text. -/
@[irreducible] def chars (literal : String) : Text := literal.toList

end Neutron.TypeNames

namespace Neutron.Syntax
namespace TypeAnnotation
open TypeNames

def label : TypeAnnotation → Text
  | int => chars "int"
  | float => chars "float"
  | string => chars "string"
  | bool => chars "bool"
  | array _ => chars "array"
  | object => chars "object"
  | option _ => chars "option"
  | result _ _ => chars "result"
  | view _ _ => chars "view"
  | shared _ => chars "shared"
  | any => chars "any"
  | pointer => chars "pointer"
  | slice _ => chars "slice"
  | own _ => chars "own"
  | ref _ mutable => chars (if mutable then "&mut" else "&")
  | rawPointer _ mutable => chars (if mutable then "*mut" else "*const")
  | named _ => chars "named type"
  | implTrait _ => chars "impl trait"
  | dyn _ => chars "dyn trait"
  | tuple _ => chars "tuple"
  | chan _ => chars "chan"

/-- `type_source`: the constructors of its last arm only keep their label. -/
def typeSource : TypeAnnotation → Text
  | named lexeme => lexeme.toList
  | int => chars "int"
  | float => chars "float"
  | string => chars "string"
  | bool => chars "bool"
  | array (some inner) => chars "array[" ++ inner.typeSource ++ chars "]"
  | option inner => chars "option[" ++ inner.typeSource ++ chars "]"
  | result ok err =>
    chars "result[" ++ ok.typeSource ++ chars "," ++ err.typeSource ++ chars "]"
  | slice (some inner) => chars "slice[" ++ inner.typeSource ++ chars "]"
  | shared inner => chars "shared " ++ inner.typeSource
  | own inner => chars "own " ++ inner.typeSource
  | view inner mutable =>
    chars "view " ++ (if mutable then chars "mut " else []) ++ inner.typeSource
  | array none => (array none).label
  | slice none => (slice none).label
  | object => object.label
  | any => any.label
  | pointer => pointer.label
  | ref inner mutable => (ref inner mutable).label
  | rawPointer inner mutable => (rawPointer inner mutable).label
  | implTrait lexeme => (implTrait lexeme).label
  | dyn lexeme => (dyn lexeme).label
  | tuple elements => (tuple elements).label
  | chan element => (chan element).label

/-- The types `parse_type_source` knows. -/
def isPlain : TypeAnnotation → Bool
  | int | float | string | bool | named _ => true
  | _ => false

end TypeAnnotation
end Neutron.Syntax

namespace Neutron.TypeNames
open Syntax

/-- `mangle_applied_type`. -/
def mangleAppliedType (base : Text) (arguments : List TypeAnnotation) : Text :=
  base ++ chars "<" ++ List.intercalate (chars ",") (arguments.map TypeAnnotation.typeSource) ++
    chars ">"

/-- The characters `str::trim` removes: the property White_Space. -/
def isWhiteSpace (c : Char) : Bool :=
  (9 ≤ c.toNat && c.toNat ≤ 13) || c.toNat = 32 || c.toNat = 133 || c.toNat = 160 ||
    c.toNat = 5760 || (8192 ≤ c.toNat && c.toNat ≤ 8202) || c.toNat = 8232 || c.toNat = 8233 ||
    c.toNat = 8239 || c.toNat = 8287 || c.toNat = 12288

def trim (text : Text) : Text :=
  ((text.dropWhile isWhiteSpace).reverse.dropWhile isWhiteSpace).reverse

/-- The loop of `split_applied_name`, with the depth and the argument read so far. -/
def splitArguments : Text → ℕ → Text → List Text
  | [], _, argument => [trim argument]
  | c :: rest, depth, argument =>
    if c = '<' ∨ c = '[' then splitArguments rest (depth + 1) (argument ++ [c])
    else if c = '>' ∨ c = ']' then splitArguments rest (depth - 1) (argument ++ [c])
    else if c = ',' ∧ depth = 0 then trim argument :: splitArguments rest 0 []
    else splitArguments rest depth (argument ++ [c])

def splitAppliedName (name : Text) : Option (Text × List Text) := do
  let start ← name.findIdx? (· = '<')
  let fromEnd ← name.reverse.findIdx? (· = '>')
  let close := name.length - 1 - fromEnd
  if close ≤ start ∨ close ≠ name.length - 1 then none
  else some (name.take start, splitArguments ((name.take close).drop (start + 1)) 0 [])

def parseTypeSource (source : Text) : TypeAnnotation :=
  let value := trim source
  if value = chars "int" then .int
  else if value = chars "float" then .float
  else if value = chars "string" then .string
  else if value = chars "bool" then .bool
  else .named (String.ofList value)

/-- The base and the arguments the generics pass reads from a name. -/
def decodeAppliedName (name : Text) : Option (Text × List TypeAnnotation) :=
  (splitAppliedName name).map fun found => (found.1, found.2.map parseTypeSource)

/-! ### What the parser produces -/

def isNameChar (c : Char) : Bool := c.isAlphanum || c = '_'

/-- Identifiers are ASCII words; the scalar type names are keywords. -/
structure Identifier (name : Text) : Prop where
  nonempty : name ≠ []
  letters : ∀ c ∈ name, isNameChar c = true
  notKeyword : name ∉ [chars "int", chars "float", chars "string", chars "bool"]

/-- The annotations `parse_type_annotation` can return. A named type is an identifier, an
associated type `A::B` or an applied type. -/
inductive Parsed : TypeAnnotation → Prop
  | int : Parsed .int
  | float : Parsed .float
  | string : Parsed .string
  | bool : Parsed .bool
  | bareArray : Parsed (.array none)
  | array {t} (h : Parsed t) : Parsed (.array (some t))
  | object : Parsed .object
  | option {t} (h : Parsed t) : Parsed (.option t)
  | result {t u} (ht : Parsed t) (hu : Parsed u) : Parsed (.result t u)
  | view {t} (h : Parsed t) (mutable : Bool) : Parsed (.view t mutable)
  | shared {t} (h : Parsed t) : Parsed (.shared t)
  | any : Parsed .any
  | pointer : Parsed .pointer
  | bareSlice : Parsed (.slice none)
  | slice {t} (h : Parsed t) : Parsed (.slice (some t))
  | own {t} (h : Parsed t) : Parsed (.own t)
  | ref {t} (h : Parsed t) (mutable : Bool) : Parsed (.ref t mutable)
  | rawPointer {t} (h : Parsed t) (mutable : Bool) : Parsed (.rawPointer t mutable)
  | identifier {name} (h : Identifier name) : Parsed (.named (String.ofList name))
  | associated {name member} (h : Identifier name) (hm : Identifier member) :
      Parsed (.named (String.ofList (name ++ chars "::" ++ member)))
  | applied {base arguments} (h : Identifier base) (hne : arguments ≠ [])
      (ha : ∀ t ∈ arguments, Parsed t) :
      Parsed (.named (String.ofList (mangleAppliedType base arguments)))
  | implTrait {name} (h : Identifier name) : Parsed (.implTrait (String.ofList name))
  | dyn {name} (h : Identifier name) : Parsed (.dyn (String.ofList name))
  | appliedDyn {base arguments} (h : Identifier base) (hne : arguments ≠ [])
      (ha : ∀ t ∈ arguments, Parsed t) :
      Parsed (.dyn (String.ofList (mangleAppliedType base arguments)))
  | tuple {elements} (h : ∀ t ∈ elements, Parsed t) : Parsed (.tuple elements)
  | chan {t} (h : Parsed t) : Parsed (.chan t)

/-! ### Splitting -/

/-- A text the splitter passes as a whole. -/
def Closed (text : Text) : Prop := ∀ depth argument rest,
  splitArguments (text ++ rest) depth argument = splitArguments rest depth (argument ++ text)

/-- The same inside brackets, where commas do not split. -/
def Inner (text : Text) : Prop := ∀ depth argument rest, 0 < depth →
  splitArguments (text ++ rest) depth argument = splitArguments rest depth (argument ++ text)

def isPlainChar (c : Char) : Bool := c ≠ '<' && c ≠ '[' && c ≠ '>' && c ≠ ']' && c ≠ ','

variable {text : Text}

theorem Closed.inner (h : Closed text) : Inner text :=
  fun depth argument rest _ => h depth argument rest

theorem Closed.append {a b : Text} (ha : Closed a) (hb : Closed b) : Closed (a ++ b) := by
  intro depth argument rest
  rw [List.append_assoc, ha, hb, List.append_assoc]

theorem Inner.append {a b : Text} (ha : Inner a) (hb : Inner b) : Inner (a ++ b) := by
  intro depth argument rest hd
  rw [List.append_assoc, ha _ _ _ hd, hb _ _ _ hd, List.append_assoc]

theorem Closed.of_plain (h : ∀ c ∈ text, isPlainChar c = true) : Closed text := by
  induction text with
  | nil =>
    intro depth argument rest
    simp
  | cons c text ih =>
    intro depth argument rest
    have hc := h c List.mem_cons_self
    simp only [isPlainChar, Bool.and_eq_true, decide_eq_true_eq, ne_eq] at hc
    obtain ⟨⟨⟨⟨h₁, h₂⟩, h₃⟩, h₄⟩, h₅⟩ := hc
    rw [List.cons_append, splitArguments, if_neg (by simp [h₁, h₂]), if_neg (by simp [h₃, h₄]),
      if_neg (by simp [h₅]), ih (fun d hd => h d (List.mem_cons_of_mem _ hd))]
    simp

theorem chars_comma : chars "," = [','] := by simp [chars]

theorem Inner.comma : Inner (chars ",") := by
  intro depth argument rest hd
  have hne : depth ≠ 0 := by omega
  simp [chars_comma, splitArguments, hne]

theorem Closed.brackets {left right : Char} (h : Inner text)
    (hl : left = '<' ∨ left = '[') (hr : right = '>' ∨ right = ']') :
    Closed (left :: text ++ [right]) := by
  intro depth argument rest
  have hleft : ¬(right = '<' ∨ right = '[') := by
    rcases hr with rfl | rfl <;> decide
  rw [List.append_assoc, List.cons_append, splitArguments, if_pos hl, h _ _ _ (Nat.succ_pos _),
    List.singleton_append, splitArguments, if_neg hleft, if_pos hr]
  simp

theorem Inner.intercalate {texts : List Text} (h : ∀ text ∈ texts, Inner text) :
    Inner (List.intercalate (chars ",") texts) := by
  induction texts with
  | nil =>
    intro depth argument rest _
    simp [List.intercalate]
  | cons text texts ih =>
    have htext := h text List.mem_cons_self
    have hrest := ih fun t ht => h t (List.mem_cons_of_mem _ ht)
    cases texts with
    | nil => simpa using htext
    | cons next texts =>
      rw [List.intercalate_cons_cons]
      exact (htext.append Inner.comma).append hrest

/-- A text without white space at its ends. -/
structure Tight (text : Text) : Prop where
  head : ∃ c, text.head? = some c ∧ isWhiteSpace c = false
  last : ∃ c, text.getLast? = some c ∧ isWhiteSpace c = false

theorem dropWhile_of_head {c : Char} (h : text.head? = some c)
    (hc : isWhiteSpace c = false) : text.dropWhile isWhiteSpace = text := by
  cases text with
  | nil => rfl
  | cons d rest =>
    obtain rfl : d = c := Option.some.inj h
    rw [List.dropWhile_cons, hc]
    rfl

theorem Tight.trim (h : Tight text) : trim text = text := by
  obtain ⟨first, hfirst, hf⟩ := h.head
  obtain ⟨last, hlast, hl⟩ := h.last
  have hrev : text.reverse.head? = some last := by rw [List.head?_reverse, hlast]
  rw [TypeNames.trim, dropWhile_of_head hfirst hf, dropWhile_of_head hrev hl, List.reverse_reverse]

theorem Tight.of_forall (hne : text ≠ []) (h : ∀ c ∈ text, isWhiteSpace c = false) : Tight text where
  head := ⟨text.head hne, List.head?_eq_some_head hne, h _ (List.head_mem hne)⟩
  last := ⟨text.getLast hne, List.getLast?_eq_some_getLast hne, h _ (List.getLast_mem hne)⟩

theorem Tight.append {a b : Text} (ha : Tight a) (hb : Tight b) : Tight (a ++ b) where
  head := by
    obtain ⟨c, hc, hw⟩ := ha.head
    exact ⟨c, by rw [List.head?_append, hc]; rfl, hw⟩
  last := by
    obtain ⟨c, hc, hw⟩ := hb.last
    exact ⟨c, by rw [List.getLast?_append, hc]; rfl, hw⟩

/-- A word and a blank in front. -/
theorem Tight.after {a b : Text} (ha : ∃ c, a.head? = some c ∧ isWhiteSpace c = false)
    (hb : Tight b) : Tight (a ++ b) where
  head := by
    obtain ⟨c, hc, hw⟩ := ha
    exact ⟨c, by rw [List.head?_append, hc]; rfl, hw⟩
  last := by
    obtain ⟨c, hc, hw⟩ := hb.last
    exact ⟨c, by rw [List.getLast?_append, hc]; rfl, hw⟩

theorem isPlainChar_of_isNameChar {c : Char} (h : isNameChar c = true) : isPlainChar c = true := by
  by_contra hc
  simp only [isPlainChar, Bool.and_eq_true, decide_eq_true_eq, ne_eq, not_and_or, not_not] at hc
  rcases hc with (((rfl | rfl) | rfl) | rfl) | rfl
  all_goals exact absurd h (by decide)

theorem isWhiteSpace_of_isNameChar {c : Char} (h : isNameChar c = true) :
    isWhiteSpace c = false := by
  have hrange : (48 ≤ c.toNat ∧ c.toNat ≤ 57) ∨ (65 ≤ c.toNat ∧ c.toNat ≤ 90) ∨ c.toNat = 95 ∨
      (97 ≤ c.toNat ∧ c.toNat ≤ 122) := by
    simp only [isNameChar, Char.isAlphanum, Char.isAlpha, Char.isUpper, Char.isLower, Char.isDigit,
      Bool.or_eq_true, Bool.and_eq_true, decide_eq_true_eq, ge_iff_le, UInt32.le_iff_toNat_le] at h
    rcases h with ((h | h) | h) | rfl
    · exact .inr (.inl h)
    · exact .inr (.inr (.inr h))
    · exact .inl h
    · exact .inr (.inr (.inl rfl))
  simp only [isWhiteSpace, Bool.or_eq_false_iff, Bool.and_eq_false_iff, decide_eq_false_iff_not]
  omega

theorem Identifier.closed {name : Text} (h : Identifier name) : Closed name :=
  Closed.of_plain fun c hc => isPlainChar_of_isNameChar (h.letters c hc)

theorem Identifier.tight {name : Text} (h : Identifier name) : Tight name :=
  Tight.of_forall h.nonempty fun c hc => isWhiteSpace_of_isNameChar (h.letters c hc)

theorem mangleAppliedType_eq (base : Text) (arguments : List TypeAnnotation) :
    mangleAppliedType base arguments = base ++ ('<' ::
      List.intercalate (chars ",") (arguments.map TypeAnnotation.typeSource) ++ ['>']) := by
  simp [mangleAppliedType, chars]

theorem Closed.applied {base : Text} {arguments : List TypeAnnotation} (hb : Closed base)
    (h : ∀ t ∈ arguments, Closed t.typeSource) : Closed (mangleAppliedType base arguments) := by
  rw [mangleAppliedType_eq]
  refine hb.append (Closed.brackets (Inner.intercalate fun text htext => ?_) (.inl rfl) (.inl rfl))
  obtain ⟨t, ht, rfl⟩ := List.mem_map.mp htext
  exact (h t ht).inner

variable {literal : String}

theorem Closed.chars (h : ∀ c ∈ literal.toList, isPlainChar c = true) : Closed (chars literal) := by
  unfold TypeNames.chars
  exact Closed.of_plain h

/-- A type constructor with its arguments in square brackets. -/
theorem Closed.constructor (word : Text)
    (hl : TypeNames.chars literal = word ++ ['[']) (hw : ∀ c ∈ word, isPlainChar c = true)
    (h : Inner text) : Closed (TypeNames.chars literal ++ text ++ TypeNames.chars "]") := by
  have hclose : TypeNames.chars "]" = [']'] := by simp [TypeNames.chars]
  have hboth := (Closed.of_plain hw).append (Closed.brackets h (.inr rfl) (.inr rfl))
  rw [hl, hclose]
  simpa using hboth

theorem Closed.label (t : TypeAnnotation) : Closed t.label := by
  cases t with
  | ref _ mutable => cases mutable <;> exact Closed.chars (by simp [isPlainChar])
  | rawPointer _ mutable => cases mutable <;> exact Closed.chars (by simp [isPlainChar])
  | _ => exact Closed.chars (by simp [isPlainChar])

/-- The source text of every type the parser produces is passed as a whole. -/
theorem Parsed.closed {t : TypeAnnotation} (h : Parsed t) : Closed t.typeSource := by
  induction h with
  | int => exact Closed.label .int
  | float => exact Closed.label .float
  | string => exact Closed.label .string
  | bool => exact Closed.label .bool
  | array _ ih =>
    rw [ TypeAnnotation.typeSource]
    exact Closed.constructor ['a', 'r', 'r', 'a', 'y'] (by simp [chars]) (by simp [isPlainChar]) ih.inner
  | option _ ih =>
    rw [ TypeAnnotation.typeSource]
    exact Closed.constructor ['o', 'p', 't', 'i', 'o', 'n'] (by simp [chars]) (by simp [isPlainChar]) ih.inner
  | slice _ ih =>
    rw [ TypeAnnotation.typeSource]
    exact Closed.constructor ['s', 'l', 'i', 'c', 'e'] (by simp [chars]) (by simp [isPlainChar]) ih.inner
  | result _ _ iht ihu =>
    have hinner := (iht.inner.append Inner.comma).append ihu.inner
    rw [ TypeAnnotation.typeSource, List.append_assoc (chars "result["),
      List.append_assoc (chars "result[")]
    exact Closed.constructor ['r', 'e', 's', 'u', 'l', 't'] (by simp [chars]) (by simp [isPlainChar]) hinner
  | view _ mutable ih =>
    rw [ TypeAnnotation.typeSource, List.append_assoc]
    refine (Closed.chars (by simp [isPlainChar])).append ?_
    cases mutable with
    | true => exact (Closed.chars (by simp [isPlainChar])).append ih
    | false => exact ih
  | shared _ ih =>
    rw [ TypeAnnotation.typeSource]
    exact (Closed.chars (by simp [isPlainChar])).append ih
  | own _ ih =>
    rw [ TypeAnnotation.typeSource]
    exact (Closed.chars (by simp [isPlainChar])).append ih
  | identifier h =>
    rw [ TypeAnnotation.typeSource, String.toList_ofList]
    exact h.closed
  | associated h hm =>
    rw [ TypeAnnotation.typeSource, String.toList_ofList]
    exact (h.closed.append (Closed.chars (by simp [isPlainChar]))).append hm.closed
  | applied h _ _ ih =>
    rw [ TypeAnnotation.typeSource, String.toList_ofList]
    exact h.closed.applied ih
  | _ =>
    rw [ TypeAnnotation.typeSource]
    exact Closed.label _

theorem Tight.chars (hne : literal.toList ≠ [])
    (h : ∀ c ∈ literal.toList, isWhiteSpace c = false) : Tight (chars literal) := by
  unfold TypeNames.chars
  exact Tight.of_forall hne h

theorem Tight.label (t : TypeAnnotation) : Tight t.label := by
  cases t with
  | ref _ mutable => cases mutable <;> exact Tight.chars (by simp) (by simp [isWhiteSpace])
  | rawPointer _ mutable => cases mutable <;> exact Tight.chars (by simp) (by simp [isWhiteSpace])
  | named => exact ⟨⟨'n', by simp [ TypeAnnotation.label, TypeNames.chars], by decide⟩,
      ⟨'e', by simp [ TypeAnnotation.label, TypeNames.chars], by decide⟩⟩
  | implTrait => exact ⟨⟨'i', by simp [ TypeAnnotation.label, TypeNames.chars], by decide⟩,
      ⟨'t', by simp [ TypeAnnotation.label, TypeNames.chars], by decide⟩⟩
  | dyn => exact ⟨⟨'d', by simp [ TypeAnnotation.label, TypeNames.chars], by decide⟩,
      ⟨'t', by simp [ TypeAnnotation.label, TypeNames.chars], by decide⟩⟩
  | _ => exact Tight.chars (by simp) (by simp [isWhiteSpace])

/-- A constructor with its arguments in square brackets. -/
theorem Tight.constructor (h : ∃ c, (TypeNames.chars literal).head? = some c ∧ isWhiteSpace c = false) :
    Tight (TypeNames.chars literal ++ text ++ TypeNames.chars "]") where
  head := by
    obtain ⟨c, hc, hspace⟩ := h
    exact ⟨c, by simp [List.head?_append, hc], hspace⟩
  last := ⟨']', by simp [TypeNames.chars, List.getLast?_append], by decide⟩

theorem Parsed.tight {t : TypeAnnotation} (h : Parsed t) : Tight t.typeSource := by
  induction h with
  | int => exact Tight.label .int
  | float => exact Tight.label .float
  | string => exact Tight.label .string
  | bool => exact Tight.label .bool
  | array =>
    rw [ TypeAnnotation.typeSource]
    exact Tight.constructor ⟨'a', by simp [chars], by decide⟩
  | option =>
    rw [ TypeAnnotation.typeSource]
    exact Tight.constructor ⟨'o', by simp [chars], by decide⟩
  | slice =>
    rw [ TypeAnnotation.typeSource]
    exact Tight.constructor ⟨'s', by simp [chars], by decide⟩
  | result =>
    rw [ TypeAnnotation.typeSource, List.append_assoc (chars "result["),
      List.append_assoc (chars "result[")]
    exact Tight.constructor ⟨'r', by simp [chars], by decide⟩
  | view _ mutable ih =>
    rw [ TypeAnnotation.typeSource, List.append_assoc]
    refine Tight.after ⟨'v', by simp [chars], by decide⟩ ?_
    cases mutable with
    | true => exact Tight.after ⟨'m', by simp [chars], by decide⟩ ih
    | false => exact ih
  | shared _ ih =>
    rw [ TypeAnnotation.typeSource]
    exact Tight.after ⟨'s', by simp [chars], by decide⟩ ih
  | own _ ih =>
    rw [ TypeAnnotation.typeSource]
    exact Tight.after ⟨'o', by simp [chars], by decide⟩ ih
  | identifier h =>
    rw [ TypeAnnotation.typeSource, String.toList_ofList]
    exact h.tight
  | associated h hm =>
    rw [ TypeAnnotation.typeSource, String.toList_ofList]
    exact (h.tight.append (Tight.chars (by simp) (by simp [isWhiteSpace]))).append hm.tight
  | applied h =>
    rw [ TypeAnnotation.typeSource, String.toList_ofList, mangleAppliedType_eq]
    refine h.tight.append ⟨⟨'<', rfl, by decide⟩, ⟨'>', ?_, by decide⟩⟩
    rw [List.getLast?_append]
    rfl
  | _ =>
    rw [ TypeAnnotation.typeSource]
    exact Tight.label _

/-- Splitting the joined sources gives the sources back. -/
theorem splitArguments_intercalate {sources : List Text} (hne : sources ≠ [])
    (hc : ∀ text ∈ sources, Closed text) (ht : ∀ text ∈ sources, Tight text) :
    splitArguments (List.intercalate (chars ",") sources) 0 [] = sources := by
  induction sources with
  | nil => exact absurd rfl hne
  | cons text sources ih =>
    have hclosed := hc text List.mem_cons_self
    have htrim := (ht text List.mem_cons_self).trim
    cases sources with
    | nil =>
      have hsplit := hclosed 0 [] []
      rw [List.append_nil, List.nil_append] at hsplit
      rw [List.intercalate_singleton, hsplit, splitArguments, htrim]
    | cons next sources =>
      have hrest := ih (by simp) (fun t h => hc t (List.mem_cons_of_mem _ h))
        (fun t h => ht t (List.mem_cons_of_mem _ h))
      rw [List.intercalate_cons_cons, List.append_assoc, hclosed]
      simp only [List.nil_append]
      have hcomma : splitArguments
          (chars "," ++ List.intercalate (chars ",") (next :: sources)) 0 text =
            trim text :: splitArguments (List.intercalate (chars ",") (next :: sources)) 0 [] := by
        rw [chars_comma, List.singleton_append, splitArguments, if_neg (by decide),
          if_neg (by decide), if_pos (by decide)]
      rw [hcomma, htrim, hrest]

theorem splitAppliedName_mangle {base : Text} {arguments : List TypeAnnotation}
    (hb : Identifier base) (hne : arguments ≠ []) (h : ∀ t ∈ arguments, Parsed t) :
    splitAppliedName (mangleAppliedType base arguments) =
      some (base, arguments.map TypeAnnotation.typeSource) := by
  set source := List.intercalate (chars ",") (arguments.map TypeAnnotation.typeSource) with hsource
  have hname : mangleAppliedType base arguments = base ++ '<' :: (source ++ ['>']) :=
    mangleAppliedType_eq base arguments
  have hopen : (mangleAppliedType base arguments).findIdx? (· = '<') = some base.length := by
    rw [hname, List.findIdx?_append]
    have hnone : base.findIdx? (· = '<') = none := by
      rw [List.findIdx?_eq_none_iff]
      intro c hc
      have hname := hb.letters c hc
      rw [decide_eq_false_iff_not]
      rintro rfl
      exact absurd hname (by decide)
    rw [hnone]
    simp [List.findIdx?_cons]
  have hclose : (mangleAppliedType base arguments).reverse.findIdx? (· = '>') = some 0 := by
    rw [hname]
    simp [List.findIdx?_cons]
  have hlength : (mangleAppliedType base arguments).length = base.length + 1 + source.length + 1 := by
    rw [hname]
    simp
    omega
  have htake : (mangleAppliedType base arguments).take base.length = base := by
    rw [hname, List.take_left]
  have hinner : ((mangleAppliedType base arguments).take (base.length + 1 + source.length)).drop
      (base.length + 1) = source := by
    have hshape : mangleAppliedType base arguments = (base ++ ['<']) ++ (source ++ ['>']) := by
      rw [hname]
      simp
    rw [hshape, List.drop_take, List.drop_append_of_le_length (by simp)]
    simp
  have hsplit : splitArguments source 0 [] = arguments.map TypeAnnotation.typeSource := by
    apply splitArguments_intercalate (by simpa using hne)
    · intro text htext
      obtain ⟨t, ht, rfl⟩ := List.mem_map.mp htext
      exact (h t ht).closed
    · intro text htext
      obtain ⟨t, ht, rfl⟩ := List.mem_map.mp htext
      exact (h t ht).tight
  have hlast : base.length + 1 + source.length + 1 - 1 - 0 = base.length + 1 + source.length := by
    omega
  simp only [splitAppliedName, hopen, hclose, hlength, Option.bind_eq_bind, Option.bind_some, hlast]
  rw [if_neg (by omega), htake, hinner, hsplit]

/-! ### Decoding -/

theorem isPlain_parseTypeSource (source : Text) : (parseTypeSource source).isPlain = true := by
  unfold parseTypeSource
  dsimp only
  split
  · rfl
  · split
    · rfl
    · split
      · rfl
      · split <;> rfl

theorem parseTypeSource_named {name : Text} (ht : Tight name)
    (h : name ∉ [chars "int", chars "float", chars "string", chars "bool"]) :
    parseTypeSource name = .named (String.ofList name) := by
  simp only [List.mem_cons, List.not_mem_nil, or_false, not_or] at h
  unfold parseTypeSource
  rw [ht.trim]
  simp only [h.1, h.2.1, h.2.2.1, h.2.2.2, if_false]

/-- A name with a character that no keyword has. -/
theorem not_keyword_of_mem {name : Text} {c : Char} (h : c ∈ name) (hc : c = ':' ∨ c = '<') :
    name ∉ [chars "int", chars "float", chars "string", chars "bool"] := by
  intro hmem
  simp only [List.mem_cons, List.not_mem_nil, or_false] at hmem
  rcases hc with rfl | rfl
  all_goals
    rcases hmem with rfl | rfl | rfl | rfl
    all_goals simp [chars] at h

theorem Parsed.parseTypeSource_iff {t : TypeAnnotation} (h : Parsed t) :
    parseTypeSource t.typeSource = t ↔ t.isPlain = true := by
  constructor
  · intro heq
    rw [← heq]
    exact isPlain_parseTypeSource _
  · intro hplain
    have htight := h.tight
    cases h with
    | int =>
      rw [parseTypeSource, htight.trim]
      exact if_pos rfl
    | float =>
      rw [parseTypeSource, htight.trim]
      simp [ TypeAnnotation.typeSource, chars]
    | string =>
      rw [parseTypeSource, htight.trim]
      simp [ TypeAnnotation.typeSource, chars]
    | bool =>
      rw [parseTypeSource, htight.trim]
      simp [ TypeAnnotation.typeSource, chars]
    | identifier h =>
      rw [ TypeAnnotation.typeSource, String.toList_ofList]
      exact parseTypeSource_named h.tight h.notKeyword
    | @associated name member =>
      have hcolon : ':' ∈ name ++ chars "::" ++ member := by simp [chars]
      rw [ TypeAnnotation.typeSource, String.toList_ofList] at htight ⊢
      exact parseTypeSource_named htight (not_keyword_of_mem hcolon (.inl rfl))
    | @applied base arguments =>
      have hbracket : '<' ∈ mangleAppliedType base arguments := by simp [mangleAppliedType, chars]
      rw [ TypeAnnotation.typeSource, String.toList_ofList] at htight ⊢
      exact parseTypeSource_named htight (not_keyword_of_mem hbracket (.inr rfl))
    | _ => simp [ TypeAnnotation.isPlain] at hplain

/-- The name of an applied type decodes to what was encoded exactly when every argument is a
scalar or a named type. -/
theorem decodeAppliedName_mangle_iff (base : Text) (arguments : List TypeAnnotation)
    (hb : Identifier base) (hne : arguments ≠ []) (h : ∀ t ∈ arguments, Parsed t) :
    decodeAppliedName (mangleAppliedType base arguments) = some (base, arguments) ↔
      ∀ t ∈ arguments, t.isPlain = true := by
  rw [decodeAppliedName, splitAppliedName_mangle hb hne h, Option.map_some, List.map_map]
  have hfixed : arguments.map (parseTypeSource ∘ TypeAnnotation.typeSource) = arguments ↔
      ∀ t ∈ arguments, parseTypeSource t.typeSource = t := by
    conv_lhs => rhs; rw [← List.map_id arguments]
    exact List.map_inj_left
  constructor
  · intro heq t ht
    have hmap := hfixed.mp (congrArg Prod.snd (Option.some.inj heq))
    exact (h t ht).parseTypeSource_iff.mp (hmap t ht)
  · intro hplain
    rw [hfixed.mpr fun t ht => (h t ht).parseTypeSource_iff.mpr (hplain t ht)]

theorem identifier_chars (hne : literal.toList ≠ []) (hc : ∀ c ∈ literal.toList, isNameChar c = true)
    (hk : chars literal ∉ [chars "int", chars "float", chars "string", chars "bool"]) :
    Identifier (chars literal) := by
  refine ⟨?_, ?_, hk⟩
  · simpa [chars] using hne
  · simpa [chars] using hc

/-- `Map<string, Box<int> >`. -/
theorem decodeAppliedName_mangle_iff_map :
    decodeAppliedName (mangleAppliedType (chars "Map")
      [.string, .named (String.ofList (mangleAppliedType (chars "Box") [.int]))]) =
      some (chars "Map", [.string, .named (String.ofList (mangleAppliedType (chars "Box") [.int]))]) := by
  have hmap : Identifier (chars "Map") :=
    identifier_chars (by simp) (by simp [isNameChar, Char.isAlphanum]) (by simp [chars])
  have hbox : Identifier (chars "Box") :=
    identifier_chars (by simp) (by simp [isNameChar, Char.isAlphanum]) (by simp [chars])
  refine (decodeAppliedName_mangle_iff _ _ hmap (by simp) ?_).mpr ?_
  · intro t ht
    simp only [List.mem_cons, List.not_mem_nil, or_false] at ht
    rcases ht with rfl | rfl
    · exact .string
    · exact .applied hbox (by simp) (by simpa using Parsed.int)
  · simp [ TypeAnnotation.isPlain]

/-- `Box<chan[int]>` has the name of `Box<chan[string]>`, and it decodes to neither. -/
theorem decodeAppliedName_mangle_chan : ¬∀ (base : Text) (arguments : List TypeAnnotation),
    Identifier base → arguments ≠ [] → (∀ t ∈ arguments, Parsed t) →
      decodeAppliedName (mangleAppliedType base arguments) = some (base, arguments) := by
  intro hclaim
  have hbox : Identifier (chars "Box") :=
    identifier_chars (by simp) (by simp [isNameChar, Char.isAlphanum]) (by simp [chars])
  have hint := hclaim (chars "Box") [.chan .int] hbox (by simp)
    (by simpa using Parsed.chan Parsed.int)
  have hstring := hclaim (chars "Box") [.chan .string] hbox (by simp)
    (by simpa using Parsed.chan Parsed.string)
  have hsame : mangleAppliedType (chars "Box") [.chan .int] =
      mangleAppliedType (chars "Box") [.chan .string] := by
    simp [mangleAppliedType, TypeAnnotation.typeSource, TypeAnnotation.label]
  rw [hsame, hstring] at hint
  simp at hint

end Neutron.TypeNames
