import Mathlib.Data.List.GetD
import Mathlib.Tactic.IntervalCases
import Mathlib.Tactic.NormNum
import Neutron.Abi
import Neutron.ElementWrites
import Neutron.Utf8Bytes

/-!
# String literals as words

The compiler ships a literal as an array of 64-bit words and a byte count, and the runtime reads the words back
into bytes. Both sides use the byte order of the machine, which is a parameter here.
-/

namespace Neutron

inductive ByteOrder where
  | little
  | big
  deriving Repr, DecidableEq

/-- `to_ne_bytes` of a 64-bit word. -/
def ByteOrder.toNeBytes (o : ByteOrder) (value : Int) : List UInt8 :=
  match o with
  | .little => Registry.leBytes 8 value
  | .big => (Registry.leBytes 8 value).reverse

/-- `u64::from_ne_bytes` -/
def ByteOrder.fromNeBytes (o : ByteOrder) (bytes : List UInt8) : ℕ :=
  match o with
  | .little => Registry.fromLeBytes bytes
  | .big => Registry.fromLeBytes bytes.reverse

/-! ## Lossy decoding -/

def isContinuation (b : UInt8) : Bool := 0x80 ≤ b ∧ b ≤ 0xBF

/-- Whether `b` may come second in a character of three or four bytes that starts with `a`. -/
def isSecondByte (a b : UInt8) : Bool :=
  if a = 0xE0 then 0xA0 ≤ b ∧ b ≤ 0xBF
  else if a = 0xED then 0x80 ≤ b ∧ b ≤ 0x9F
  else if a = 0xF0 then 0x90 ≤ b ∧ b ≤ 0xBF
  else if a = 0xF4 then 0x80 ≤ b ∧ b ≤ 0x8F
  else 0xE1 ≤ a ∧ a ≤ 0xF3 ∧ isContinuation b

/-- How many bytes one replacement character stands for, where no character starts. -/
def invalidLength : List UInt8 → ℕ
  | a :: b :: rest =>
      if isSecondByte a b then
        match rest with
        | c :: _ => if 0xF0 ≤ a ∧ isContinuation c then 3 else 2
        | [] => 2
      else 1
  | _ => 1

def decodeLossy : ℕ → List UInt8 → List Char
  | _, [] => []
  | 0, _ => []
  | n + 1, b :: bs =>
      match (ByteArray.mk (b :: bs).toArray).utf8DecodeChar? 0 with
      | some c => c :: decodeLossy n ((b :: bs).drop c.utf8Size)
      | none => '\uFFFD' :: decodeLossy n ((b :: bs).drop (invalidLength (b :: bs)))

/-- `String::from_utf8_lossy` -/
def fromUtf8Lossy (bytes : List UInt8) : String := String.ofList (decodeLossy bytes.length bytes)

/-! ## The two sides -/

variable (o : ByteOrder)

/-- Chunk `i` of the bytes, filled up with zeros. -/
def block (bytes : List UInt8) (i : ℕ) : List UInt8 :=
  let chunk := (bytes.drop (8 * i)).take 8
  chunk ++ List.replicate (8 - chunk.length) 0

/-- The words of a literal: `chunks(8)` yields one chunk for every eight bytes begun. -/
def literalWords (bytes : List UInt8) : List Int :=
  (List.range ((bytes.length + 7) / 8)).map (fun i => toI64 (o.fromNeBytes (block bytes i)))

namespace Registry

variable (r : Registry)

def pushWords (words : Int) (ws : List Int) : Registry := ws.foldl (fun r word => (r.arrayPush words word).1) r

/-- The number of words `string_from_words_impl` reads. -/
def wordCount (byteCount : Int) : ℕ :=
  let count := min (max byteCount 0).toNat maxBuiltinOutput
  count / 8 + if 0 < count then 1 else 0

def putText (permanent : Bool) (text : String) : Registry × Int :=
  if permanent then r.putStringPermanent text else r.putString text

def stringFromWordsImpl (words byteCount : Int) (permanent : Bool) : Registry × Int :=
  if words ≠ null then
    let count := min (max byteCount 0).toNat maxBuiltinOutput
    let bytes := (List.range (wordCount byteCount)).flatMap (fun i : ℕ => o.toNeBytes ((r.arrayGet words i).getD 0))
    (r.arrayDrop words).putText permanent (fromUtf8Lossy (bytes.take count))
  else r.putText permanent (fromUtf8Lossy [])

/-- The calls emitted for a literal; a text without words sends the null handle. -/
def buildStringWordsVia (text : String) (permanent : Bool) : Registry × Int :=
  let bytes := utf8 text.toList
  let ws := literalWords o bytes
  if ws = [] then r.stringFromWordsImpl o null bytes.length permanent
  else
    let (s, words) := r.arrayNew 8 false
    (s.pushWords words ws).stringFromWordsImpl o words bytes.length permanent

end Registry

/-! ## Decoding the bytes of a text -/

theorem decodeLossy_utf8 (s : List Char) (n : ℕ) (hn : (utf8 s).length ≤ n) : decodeLossy n (utf8 s) = s := by
  induction s generalizing n with
  | nil => cases n <;> rfl
  | cons c s ih =>
      have hsize : (String.utf8EncodeChar c).length = c.utf8Size := String.length_utf8EncodeChar c
      have hpos := c.utf8Size_pos
      rw [utf8_cons, List.length_append] at hn
      obtain ⟨n, rfl⟩ : ∃ m, n = m + 1 := ⟨n - 1, by omega⟩
      have hfirst : (ByteArray.mk (utf8 (c :: s)).toArray).utf8DecodeChar? 0 = some c := by
        have hbytes : ByteArray.mk (utf8 (c :: s)).toArray =
            (String.utf8EncodeChar c).toByteArray ++ ByteArray.mk (utf8 s).toArray := by
          apply ByteArray.ext
          apply Array.toList_inj.mp
          rw [utf8_cons, ByteArray.data_append, Array.toList_append, List.toList_data_toByteArray]
        rw [hbytes]
        exact ByteArray.utf8DecodeChar?_utf8EncodeChar_append
      have hdrop : (utf8 (c :: s)).drop c.utf8Size = utf8 s := by
        rw [utf8_cons, ← hsize, List.drop_left]
      cases hcons : utf8 (c :: s) with
      | nil =>
          rw [utf8_cons, List.append_eq_nil_iff] at hcons
          rw [hcons.1] at hsize
          exact absurd hsize.symm (by simpa using hpos.ne')
      | cons b bs =>
          rw [hcons] at hfirst hdrop
          simp only [decodeLossy, hfirst, hdrop]
          rw [ih n (by omega)]

theorem fromUtf8Lossy_utf8 (text : String) : fromUtf8Lossy (utf8 text.toList) = text := by
  rw [fromUtf8Lossy, decodeLossy_utf8 _ _ le_rfl, String.ofList_toList]

/-! ## Words and bytes -/

theorem fromLeBytes_byte (bytes : List UInt8) (i : ℕ) :
    Registry.fromLeBytes bytes / 256 ^ i % 256 = (bytes.getD i 0).toNat := by
  induction bytes generalizing i with
  | nil => simp [Registry.fromLeBytes]
  | cons b bytes ih =>
      have hb := b.toNat_lt
      cases i with
      | zero =>
          rw [Registry.fromLeBytes, List.getD_cons_zero, pow_zero, Nat.div_one]
          omega
      | succ i =>
          have hstep : Registry.fromLeBytes (b :: bytes) / 256 = Registry.fromLeBytes bytes := by
            rw [Registry.fromLeBytes]
            omega
          rw [pow_succ', ← Nat.div_div_eq_div_mul, hstep, List.getD_cons_succ, ih]

/-- The bytes of a word do not depend on its sign. -/
theorem toI64_byte (n i : ℕ) (hi : i < 8) :
    (toI64 n / 2 ^ (8 * i)) % 256 = ((n / 256 ^ i % 256 : ℕ) : Int) := by
  have hmod : toI64 n % 2 ^ 64 = (n : Int) % 2 ^ 64 := Int.bmod_emod
  generalize toI64 n = v at hmod
  interval_cases i <;> norm_num at hmod ⊢ <;> omega

theorem leBytes_toI64_fromLeBytes {bytes : List UInt8} (h : bytes.length = 8) :
    Registry.leBytes 8 (toI64 (Registry.fromLeBytes bytes)) = bytes := by
  apply List.ext_getElem
  · rw [Registry.leBytes, List.length_map, List.length_range, h]
  · intro i hi hb
    have hi8 : i < 8 := h ▸ hb
    simp only [Registry.leBytes, List.getElem_map, List.getElem_range]
    rw [toI64_byte _ _ hi8, Int.toNat_natCast, fromLeBytes_byte, List.getD_eq_getElem _ _ hb, UInt8.ofNat_toNat]

theorem toNeBytes_fromNeBytes {bytes : List UInt8} (h : bytes.length = 8) :
    o.toNeBytes (toI64 (o.fromNeBytes bytes)) = bytes := by
  cases o with
  | little => exact leBytes_toI64_fromLeBytes h
  | big =>
      have hlength : bytes.reverse.length = 8 := by rw [List.length_reverse, h]
      have hback := leBytes_toI64_fromLeBytes hlength
      rw [ByteOrder.toNeBytes, ByteOrder.fromNeBytes, hback, List.reverse_reverse]

theorem toNeBytes_zero : o.toNeBytes 0 = List.replicate 8 0 := by
  cases o <;> decide

theorem length_block (bytes : List UInt8) (i : ℕ) : (block bytes i).length = 8 := by
  rw [block, List.length_append, List.length_replicate, List.length_take]
  omega

theorem block_past {bytes : List UInt8} {i : ℕ} (h : bytes.length ≤ 8 * i) : block bytes i = List.replicate 8 0 := by
  rw [block, List.drop_eq_nil_of_le h]
  rfl

theorem length_literalWords (bytes : List UInt8) : (literalWords o bytes).length = (bytes.length + 7) / 8 := by
  rw [literalWords, List.length_map, List.length_range]

/-- What the decoder reads at an index, whether or not a word was pushed there. -/
theorem toNeBytes_literalWords (bytes : List UInt8) (i : ℕ) :
    o.toNeBytes (((literalWords o bytes)[i]?).getD 0) = block bytes i := by
  by_cases hi : i < (bytes.length + 7) / 8
  · rw [literalWords, List.getElem?_map, List.getElem?_range hi, Option.map_some, Option.getD_some,
      toNeBytes_fromNeBytes o (length_block bytes i)]
  · have hnone : (literalWords o bytes)[i]? = none := by
      rw [List.getElem?_eq_none_iff, length_literalWords]
      omega
    rw [hnone, Option.getD_none, toNeBytes_zero, block_past (by omega)]

/-- The blocks of a range spell the bytes, cut short or filled up with zeros. -/
theorem flatMap_block (bytes : List UInt8) (m : ℕ) :
    (List.range m).flatMap (block bytes) = bytes.take (8 * m) ++ List.replicate (8 * m - bytes.length) 0 := by
  induction m with
  | zero => simp
  | succ m ih =>
      rw [List.range_succ, List.flatMap_append, ih, List.flatMap_singleton]
      by_cases hm : bytes.length ≤ 8 * m
      · have hsplit : 8 * (m + 1) - bytes.length = (8 * m - bytes.length) + 8 := by omega
        rw [block_past hm, List.take_of_length_le hm, List.take_of_length_le (by omega), hsplit, List.append_assoc,
          List.replicate_add]
      · have hnone : 8 * m - bytes.length = 0 := by omega
        have hfill : 8 - ((bytes.drop (8 * m)).take 8).length = 8 * (m + 1) - bytes.length := by
          rw [List.length_take, List.length_drop]
          omega
        rw [hnone, List.replicate_zero, List.append_nil, block, hfill, ← List.append_assoc, mul_add, mul_one,
          List.take_add]

theorem take_flatMap_block (bytes : List UInt8) {m : ℕ} (h : bytes.length ≤ 8 * m) :
    ((List.range m).flatMap (block bytes)).take bytes.length = bytes := by
  rw [flatMap_block, List.take_of_length_le h, List.take_left]

namespace Registry

attribute [local irreducible] drawn

variable {r : Registry}

/-! ## Pushing and reading the words -/

variable {words : Int} {n : ℕ} {ws : List Int}

theorem arrayPush_word (word : Int) (h : r.lookup words = some (.array ⟨n, false, ws⟩)) :
    (r.arrayPush words word).1.lookup words = some (.array ⟨n, false, ws ++ [word]⟩) := by
  simp only [arrayPush, h, adoptElement, Bool.false_eq_true, if_false, setElements]
  rw [lookup_modify, if_pos rfl, h, Option.map_some]

theorem lookup_pushWords (more : List Int) (h : r.lookup words = some (.array ⟨n, false, ws⟩)) :
    (r.pushWords words more).lookup words = some (.array ⟨n, false, ws ++ more⟩) := by
  induction more generalizing r ws with
  | nil => simpa [pushWords] using h
  | cons word more ih =>
      have hrest := ih (arrayPush_word word h)
      rw [List.append_assoc, List.singleton_append] at hrest
      exact hrest

theorem lookup_pushWords_ne {words k : Int} (more : List Int)
    (h : r.lookup words = some (.array ⟨n, false, ws⟩)) (hk : k ≠ words) :
    (r.pushWords words more).lookup k = r.lookup k := by
  induction more generalizing r ws with
  | nil => rfl
  | cons word more ih =>
      have hstep : (r.arrayPush words word).1.lookup k = r.lookup k := by
        simp only [arrayPush, h, adoptElement, Bool.false_eq_true, if_false, setElements]
        rw [lookup_modify, if_neg hk]
      exact (ih (arrayPush_word word h)).trans hstep

theorem lookup_putText (permanent : Bool) (text : String) (k : Int) :
    (r.putText permanent text).1.lookup k =
      if k = (r.putText permanent text).2 then some (.string text) else r.lookup k := by
  cases permanent with
  | false => exact lookup_store _ _ _
  | true => exact lookup_store _ _ _

theorem lookup_arrayDrop_words (hwords : words ≠ null)
    (h : r.lookup words = some (.array ⟨n, false, ws⟩)) (k : Int) :
    (r.arrayDrop words).lookup k = if k = words then none else r.lookup k := by
  simp only [arrayDrop, if_neg hwords, h, remove, Bool.false_eq_true, if_false, retireBumping]
  exact lookup_discard _ _

theorem clamp_length (h : n ≤ maxBuiltinOutput) : min (max (n : Int) 0).toNat maxBuiltinOutput = n := by
  rw [max_eq_left (by omega), Int.toNat_natCast, min_eq_left h]

/-- The quotient plus one covers every byte. -/
theorem length_le_wordCount (h : n ≤ maxBuiltinOutput) : n ≤ 8 * wordCount n := by
  rw [wordCount, clamp_length h]
  by_cases hn : 0 < n
  · rw [if_pos hn]
    omega
  · omega

theorem arrayGet_words (hwords : words ≠ null)
    (h : r.lookup words = some (.array ⟨n, false, ws⟩)) (i : ℕ) : r.arrayGet words i = ws[i]? := by
  rw [arrayGet, if_neg (by omega), array?, borrow, if_neg hwords, h, Option.bind_some, Int.toNat_natCast]

/-- The decoder finds the text in the words of its bytes. -/
theorem stringFromWordsImpl_words {text : String} (hwords : words ≠ null)
    (h : r.lookup words = some (.array ⟨n, false, literalWords o (utf8 text.toList)⟩))
    (hlen : (utf8 text.toList).length ≤ maxBuiltinOutput) (permanent : Bool) :
    r.stringFromWordsImpl o words (utf8 text.toList).length permanent =
      (r.arrayDrop words).putText permanent text := by
  have hread : (fun i : ℕ => o.toNeBytes ((r.arrayGet words i).getD 0)) = block (utf8 text.toList) := by
    funext i
    rw [arrayGet_words hwords h, toNeBytes_literalWords]
  rw [stringFromWordsImpl, if_pos hwords]
  simp only [clamp_length hlen]
  rw [hread, take_flatMap_block _ (length_le_wordCount hlen), fromUtf8Lossy_utf8]

theorem stringFromWordsImpl_null (byteCount : Int) (permanent : Bool) :
    r.stringFromWordsImpl o null byteCount permanent = r.putText permanent "" := by
  rw [stringFromWordsImpl, if_neg (fun h => h rfl)]
  rfl

/-- Pushing the words of a text into an empty array and reading them back: the text is registered, the array is
gone, and nothing else has changed. -/
theorem lookup_stringFromWordsImpl {text : String} (harray : r.array? words = some ⟨8, false, []⟩)
    (hlen : (utf8 text.toList).length ≤ maxBuiltinOutput) (permanent : Bool) (k : Int) :
    let s := r.pushWords words (literalWords o (utf8 text.toList))
    let built := s.stringFromWordsImpl o words (utf8 text.toList).length permanent
    built.1.lookup k = if k = built.2 then some (.string text) else if k = words then none else r.lookup k := by
  obtain ⟨hwords, hl⟩ := array?_eq_some.mp harray
  have hpushed := lookup_pushWords (literalWords o (utf8 text.toList)) hl
  rw [List.nil_append] at hpushed
  intro s built
  have hbuilt : built = (s.arrayDrop words).putText permanent text :=
    stringFromWordsImpl_words o hwords hpushed hlen permanent
  rw [hbuilt, lookup_putText, lookup_arrayDrop_words hwords hpushed]
  by_cases hk : k = words
  · rw [if_pos hk, if_pos hk]
  · rw [if_neg hk, if_neg hk, lookup_pushWords_ne _ hl hk]

end Registry

/-! ## The encoding of a literal is inverted -/

attribute [local irreducible] Registry.drawn

theorem literalWords_eq_nil_iff (bytes : List UInt8) : literalWords o bytes = [] ↔ bytes = [] := by
  rw [← List.length_eq_zero_iff, length_literalWords, ← List.length_eq_zero_iff]
  omega

theorem utf8_eq_nil_iff (s : List Char) : utf8 s = [] ↔ s = [] := by
  cases s with
  | nil => simp
  | cons c s =>
      have hsize : (String.utf8EncodeChar c).length = c.utf8Size := String.length_utf8EncodeChar c
      have hpos := c.utf8Size_pos
      rw [utf8_cons, List.append_eq_nil_iff]
      constructor
      · rintro ⟨hc, -⟩
        rw [hc, List.length_nil] at hsize
        omega
      · rintro ⟨⟩

theorem buildStringWordsVia_empty (r : Registry) (permanent : Bool) :
    r.buildStringWordsVia o "" permanent = r.putText permanent "" := by
  have hnil : literalWords o (utf8 "".toList) = [] := (literalWords_eq_nil_iff o _).mpr rfl
  simp only [Registry.buildStringWordsVia, if_pos hnil]
  exact Registry.stringFromWordsImpl_null o _ permanent

theorem buildStringWordsVia_text (r : Registry) {text : String} (htext : text ≠ "") (permanent : Bool) :
    r.buildStringWordsVia o text permanent =
      ((r.arrayNew 8 false).1.pushWords (r.arrayNew 8 false).2
        (literalWords o (utf8 text.toList))).stringFromWordsImpl o (r.arrayNew 8 false).2
          (utf8 text.toList).length permanent := by
  have hwords : literalWords o (utf8 text.toList) ≠ [] := by
    rw [Ne, literalWords_eq_nil_iff, utf8_eq_nil_iff, String.toList_eq_nil_iff]
    exact htext
  simp only [Registry.buildStringWordsVia, if_neg hwords]

theorem arrayNew_words (r : Registry) : r.arrayNew 8 false = r.insert (.array ⟨8, false, []⟩) :=
  if_neg (by omega)

theorem lookup_arrayNew (r : Registry) (k : Int) :
    (r.arrayNew 8 false).1.lookup k =
      if k = Registry.drawn r.issued then some (.array ⟨8, false, []⟩) else r.lookup k := by
  rw [arrayNew_words, Registry.lookup_insert]

theorem array?_arrayNew {r : Registry} (hnew : Registry.drawn r.issued ≠ null) :
    (r.arrayNew 8 false).1.array? (Registry.drawn r.issued) = some ⟨8, false, []⟩ :=
  Registry.array?_eq_some.mpr ⟨hnew, (lookup_arrayNew r _).trans (if_pos rfl)⟩

/-- Every text of at most 2^24 bytes comes back from the words of its bytes: from any empty array the words are
pushed into, and from the calls the compiler emits. The word array is consumed, every other entry is as it was,
and an index with no word is one whose bytes are cut off. -/
theorem string_literals_survive (r : Registry) (text : String) (permanent : Bool)
    (hlen : (utf8 text.toList).length ≤ maxBuiltinOutput) :
    (∀ words, r.array? words = some ⟨8, false, []⟩ →
      let s := r.pushWords words (literalWords o (utf8 text.toList))
      let built := s.stringFromWordsImpl o words (utf8 text.toList).length permanent
      s.array? words = some ⟨8, false, literalWords o (utf8 text.toList)⟩ ∧
        (∀ i < Registry.wordCount (utf8 text.toList).length,
          s.arrayGet words i = none → (utf8 text.toList).length ≤ 8 * i) ∧
        ∀ k, built.1.lookup k =
          if k = built.2 then some (.string text) else if k = words then none else r.lookup k) ∧
      (Registry.drawn r.issued ≠ null →
        let built := r.buildStringWordsVia o text permanent
        ∀ k, built.1.lookup k =
          if k = built.2 then some (.string text)
          else if text ≠ "" ∧ k = Registry.drawn r.issued then none else r.lookup k) := by
  constructor
  · intro words harray s built
    obtain ⟨hwords, hl⟩ := Registry.array?_eq_some.mp harray
    have hpushed : s.lookup words = some (.array ⟨8, false, literalWords o (utf8 text.toList)⟩) :=
      Registry.lookup_pushWords _ hl
    refine ⟨Registry.array?_eq_some.mpr ⟨hwords, hpushed⟩, fun i _ hnone => ?_, fun k => ?_⟩
    · rw [Registry.arrayGet_words hwords hpushed, List.getElem?_eq_none_iff, length_literalWords] at hnone
      omega
    · exact Registry.lookup_stringFromWordsImpl o harray hlen permanent k
  · intro hnew built k
    by_cases htext : text = ""
    · subst htext
      have hbuilt : built = r.putText permanent "" := buildStringWordsVia_empty o r permanent
      rw [hbuilt, Registry.lookup_putText]
      simp
    · have hid : (r.arrayNew 8 false).2 = Registry.drawn r.issued := by rw [arrayNew_words]; rfl
      have hbuilt := buildStringWordsVia_text o r htext permanent
      rw [hid] at hbuilt
      have hread := Registry.lookup_stringFromWordsImpl o (array?_arrayNew hnew) hlen permanent k
      dsimp only at hread
      rw [← hbuilt] at hread
      refine hread.trans (if_congr Iff.rfl rfl ?_)
      by_cases hk : k = Registry.drawn r.issued
      · rw [if_pos hk, if_pos ⟨htext, hk⟩]
      · rw [if_neg hk, if_neg (fun h => hk h.2), lookup_arrayNew, if_neg hk]

/-- Nine bytes, with the last character across the border of the two words. -/
theorem string_literals_survive_two_words :
    let words := Registry.drawn 0
    let s := (Registry.empty.arrayNew 8 false).1.pushWords words (literalWords .little (utf8 "seven €".toList))
    s.array? words = some ⟨8, false, literalWords .little (utf8 "seven €".toList)⟩ ∧
      ∃ k, (s.stringFromWordsImpl .little words 9 true).1.lookup k = some (.string "seven €") := by
  have hlen : (utf8 "seven €".toList).length = 9 := by decide
  have hnew : Registry.drawn Registry.empty.issued ≠ null := Registry.drawn_ne_null (by decide)
  have h := (string_literals_survive .little (Registry.empty.arrayNew 8 false).1 "seven €" true
    (by rw [hlen]; decide)).1 _ (array?_arrayNew hnew)
  rw [hlen] at h
  exact ⟨h.1, _, (h.2.2 _).trans (if_pos rfl)⟩

end Neutron
