import Neutron.JsonGrammar
import Neutron.JsonParser

/-!
# What the JSON parser accepts

The rules of a relaxed grammar over bytes, each with the text it rebuilds: form feeds are whitespace, a
number is a longest run of number characters, a string ends at the first quote that is not escaped and holds
any other bytes, any character may be escaped, and nothing is asked of what follows. The parser accepts
exactly what has a derivation, and fuel for it is at hand.
-/

namespace Neutron.JsonParser

open Json (quoted)

/-- The rest of a string after its opening quote. -/
inductive StringBody : Bytes → List Char → Bytes → Prop
  | close (rest) : StringBody (ascii '"' :: rest) [] rest
  | plain {b bytes cs rest} (hquote : b ≠ ascii '"') (hescape : b ≠ ascii '\\') (h : StringBody bytes cs rest) :
      StringBody (b :: bytes) (byteChar b :: cs) rest
  | escape {e bytes cs rest} (he : e ≠ ascii 'u') (h : StringBody bytes cs rest) :
      StringBody (ascii '\\' :: e :: bytes) (unescaped e :: cs) rest
  | unicode {bytes cs rest} (h : StringBody (bytes.drop 4) cs rest) :
      StringBody (ascii '\\' :: ascii 'u' :: bytes) ('?' :: cs) rest

inductive Kind where
  | value | elements | members

def words : List (List Char) := [['t', 'r', 'u', 'e'], ['f', 'a', 'l', 's', 'e'], ['n', 'u', 'l', 'l']]

/-- `Reads kind bytes outs rest`: a value, or the elements or members up to the closing bracket, with the
texts rebuilt for them. -/
inductive Reads : Kind → Bytes → List (List Char) → Bytes → Prop
  | word {bytes word rest} (hword : word ∈ words) (h : skipWhitespace bytes = utf8 word ++ rest) :
      Reads .value bytes [word] rest
  | number {bytes b more} (h : skipWhitespace bytes = b :: more) (hb : b = ascii '-' ∨ isAsciiDigit b = true) :
      Reads .value bytes [(numberRun (b :: more)).1.map byteChar] (numberRun (b :: more)).2
  | string {bytes more cs rest} (h : skipWhitespace bytes = ascii '"' :: more) (hs : StringBody more cs rest) :
      Reads .value bytes [quoted cs] rest
  | emptyArray {bytes more rest} (h : skipWhitespace bytes = ascii '[' :: more)
      (hclose : skipWhitespace more = ascii ']' :: rest) : Reads .value bytes [['[', ']']] rest
  | array {bytes more outs rest} (h : skipWhitespace bytes = ascii '[' :: more)
      (hopen : (skipWhitespace more).head? ≠ some (ascii ']')) (hes : Reads .elements (skipWhitespace more) outs rest) :
      Reads .value bytes ['[' :: (List.intercalate [','] outs ++ [']'])] rest
  | emptyObject {bytes more rest} (h : skipWhitespace bytes = ascii '{' :: more)
      (hclose : skipWhitespace more = ascii '}' :: rest) : Reads .value bytes [['{', '}']] rest
  | object {bytes more outs rest} (h : skipWhitespace bytes = ascii '{' :: more)
      (hopen : (skipWhitespace more).head? ≠ some (ascii '}')) (hms : Reads .members (skipWhitespace more) outs rest) :
      Reads .value bytes ['{' :: (List.intercalate [','] outs ++ ['}'])] rest
  | lastElement {bytes out more rest} (hv : Reads .value bytes [out] more)
      (hclose : skipWhitespace more = ascii ']' :: rest) : Reads .elements bytes [out] rest
  | element {bytes out more more' outs rest} (hv : Reads .value bytes [out] more)
      (hcomma : skipWhitespace more = ascii ',' :: more') (hes : Reads .elements (skipWhitespace more') outs rest) :
      Reads .elements bytes (out :: outs) rest
  | lastMember {bytes key more more' out more'' rest} (hk : StringBody bytes key more)
      (hcolon : skipWhitespace more = ascii ':' :: more') (hv : Reads .value (skipWhitespace more') [out] more'')
      (hclose : skipWhitespace more'' = ascii '}' :: rest) :
      Reads .members (ascii '"' :: bytes) [quoted key ++ ':' :: out] rest
  | member {bytes key more more' out more'' next outs rest} (hk : StringBody bytes key more)
      (hcolon : skipWhitespace more = ascii ':' :: more') (hv : Reads .value (skipWhitespace more') [out] more'')
      (hcomma : skipWhitespace more'' = ascii ',' :: next) (hms : Reads .members (skipWhitespace next) outs rest) :
      Reads .members (ascii '"' :: bytes) ((quoted key ++ ':' :: out) :: outs) rest

/-! ## Strings -/

theorem stringLoop_quote (result : List Char) (rest : Bytes) :
    stringLoop result (ascii '"' :: rest) = .ok (quoted result, rest) := by
  cases rest <;> rw [stringLoop, if_pos rfl] <;> rfl

theorem stringLoop_plain {b : UInt8} (hquote : b ≠ ascii '"') (hescape : b ≠ ascii '\\') (result : List Char)
    (rest : Bytes) : stringLoop result (b :: rest) = stringLoop (result ++ [byteChar b]) rest := by
  cases rest with
  | nil => conv_lhs => rw [stringLoop, if_neg hquote, if_neg hescape]
  | cons next rest => rw [stringLoop, if_neg hquote, if_neg hescape]

theorem stringLoop_escape {e : UInt8} (he : e ≠ ascii 'u') (result : List Char) (rest : Bytes) :
    stringLoop result (ascii '\\' :: e :: rest) = stringLoop (result ++ [unescaped e]) rest := by
  rw [stringLoop, if_neg (by decide), if_pos rfl, if_neg he]

theorem stringLoop_unicode (result : List Char) (rest : Bytes) :
    stringLoop result (ascii '\\' :: ascii 'u' :: rest) = stringLoop (result ++ ['?']) (rest.drop 4) := by
  rw [stringLoop, if_neg (by decide), if_pos rfl, if_pos rfl]

variable {bytes rest : Bytes}

theorem stringLoop_of_body {cs : List Char} (h : StringBody bytes cs rest) (result : List Char) :
    stringLoop result bytes = .ok (quoted (result ++ cs), rest) := by
  induction h generalizing result with
  | close rest => rw [stringLoop_quote, List.append_nil]
  | plain hquote hescape _ ih => rw [stringLoop_plain hquote hescape, ih, List.append_assoc]; rfl
  | escape he _ ih => rw [stringLoop_escape he, ih, List.append_assoc]; rfl
  | unicode _ ih => rw [stringLoop_unicode, ih, List.append_assoc]; rfl

theorem body_of_stringLoop {result out : List Char} (h : stringLoop result bytes = .ok (out, rest)) :
    ∃ cs, StringBody bytes cs rest ∧ out = quoted (result ++ cs) := by
  induction hn : bytes.length using Nat.strongRecOn generalizing result bytes with
  | _ n ih =>
    rcases bytes with _ | ⟨b, bytes⟩
    · rw [stringLoop] at h
      exact absurd h (by simp)
    · by_cases hquote : b = ascii '"'
      · rw [hquote, stringLoop_quote] at h
        injection h with h
        injection h with hout hrest
        exact ⟨[], by rw [hquote, hrest]; exact .close rest, by rw [List.append_nil, hout]⟩
      · by_cases hescape : b = ascii '\\'
        · rcases bytes with _ | ⟨e, bytes⟩
          · rw [hescape, stringLoop, if_neg (by decide), if_pos rfl] at h
            exact absurd h (by simp)
          · by_cases he : e = ascii 'u'
            · rw [hescape, he, stringLoop_unicode] at h
              obtain ⟨cs, hbody, hout⟩ := ih _ (by rw [← hn, List.length_drop, List.length_cons, List.length_cons]; omega)
                h rfl
              exact ⟨'?' :: cs, by rw [hescape, he]; exact .unicode hbody, by rw [hout, List.append_assoc]; rfl⟩
            · rw [hescape, stringLoop_escape he] at h
              obtain ⟨cs, hbody, hout⟩ := ih _ (by rw [← hn, List.length_cons, List.length_cons]; omega) h rfl
              exact ⟨unescaped e :: cs, by rw [hescape]; exact .escape he hbody, by rw [hout, List.append_assoc]; rfl⟩
        · rw [stringLoop_plain hquote hescape] at h
          obtain ⟨cs, hbody, hout⟩ := ih _ (by rw [← hn, List.length_cons]; omega) h rfl
          exact ⟨byteChar b :: cs, .plain hquote hescape hbody, by rw [hout, List.append_assoc]; rfl⟩

theorem expect_ok {c : Char} (h : expect c bytes = .ok rest) : bytes = ascii c :: rest := by
  cases bytes with
  | nil => exact absurd h (by simp [expect])
  | cons b bytes =>
    rw [expect] at h
    split at h
    · rename_i hb
      rw [hb, Except.ok.inj h]
    · exact absurd h (by simp)

theorem parseString_ok {out : List Char} (h : parseString bytes = .ok (out, rest)) :
    ∃ more cs, bytes = ascii '"' :: more ∧ StringBody more cs rest ∧ out = quoted cs := by
  rw [parseString] at h
  cases hexpect : expect '"' bytes with
  | error e =>
    rw [hexpect] at h
    exact absurd h (by simp)
  | ok more =>
    rw [hexpect] at h
    obtain ⟨cs, hbody, hout⟩ := body_of_stringLoop h
    exact ⟨more, cs, expect_ok hexpect, hbody, hout⟩

theorem parseString_of_body {cs : List Char} (h : StringBody bytes cs rest) :
    parseString (ascii '"' :: bytes) = .ok (quoted cs, rest) := by
  rw [parseString, expect, if_pos rfl]
  exact stringLoop_of_body h []

/-! ## The parser keeps to the rules -/

theorem dropPrefix?_eq_some {word : List Char} (h : bytes.dropPrefix? (utf8 word) = some rest) :
    bytes = utf8 word ++ rest := by
  obtain ⟨word', hsplit, heq⟩ := List.dropPrefix?_eq_some_iff.mp h
  rw [hsplit, eq_of_beq heq]

theorem dropPrefix?_append (word : List Char) (rest : Bytes) :
    (utf8 word ++ rest).dropPrefix? (utf8 word) = some rest :=
  List.dropPrefix?_eq_some_iff.mpr ⟨utf8 word, rfl, beq_self_eq_true _⟩

theorem parseBool_ok {out : List Char} (h : parseBool bytes = .ok (out, rest)) :
    out ∈ words ∧ bytes = utf8 out ++ rest := by
  rw [parseBool] at h
  split at h
  · rename_i hdrop
    injection h with h
    injection h with hout hrest
    rw [← hout, ← hrest]
    exact ⟨List.mem_cons_self, dropPrefix?_eq_some hdrop⟩
  · split at h
    · rename_i hdrop
      injection h with h
      injection h with hout hrest
      rw [← hout, ← hrest]
      exact ⟨List.mem_cons_of_mem _ List.mem_cons_self, dropPrefix?_eq_some hdrop⟩
    · exact absurd h (by simp)

theorem parseNull_ok {out : List Char} (h : parseNull bytes = .ok (out, rest)) :
    out ∈ words ∧ bytes = utf8 out ++ rest := by
  rw [parseNull] at h
  split at h
  · rename_i hdrop
    injection h with h
    injection h with hout hrest
    rw [← hout, ← hrest]
    exact ⟨List.mem_cons_of_mem _ (List.mem_cons_of_mem _ List.mem_cons_self), dropPrefix?_eq_some hdrop⟩
  · exact absurd h (by simp)

theorem reads_of_parse (fuel : ℕ) :
    (∀ bytes out rest, parseValue fuel bytes = .ok (out, rest) → Reads .value bytes [out] rest) ∧
    (∀ before bytes out rest, arrayLoop fuel before bytes = .ok (out, rest) →
      ∃ outs, Reads .elements bytes outs rest ∧ out = '[' :: (List.intercalate [','] (before ++ outs) ++ [']'])) ∧
    ∀ before bytes out rest, objectLoop fuel before bytes = .ok (out, rest) →
      ∃ outs, Reads .members bytes outs rest ∧ out = '{' :: (List.intercalate [','] (before ++ outs) ++ ['}']) := by
  induction fuel with
  | zero =>
    refine ⟨fun bytes out rest h => ?_, fun before bytes out rest h => ?_, fun before bytes out rest h => ?_⟩
    · rw [parseValue] at h
      exact absurd h (by simp)
    · rw [arrayLoop] at h
      exact absurd h (by simp)
    · rw [objectLoop] at h
      exact absurd h (by simp)
  | succ fuel ih =>
    obtain ⟨ihValue, ihArray, ihObject⟩ := ih
    refine ⟨fun bytes out rest h => ?_, fun before bytes out rest h => ?_, fun before bytes out rest h => ?_⟩
    · rw [parseValue] at h
      split at h
      · exact absurd h (by simp)
      · rename_i b more hskip
        split_ifs at h with hquote hbrace hbracket hbool hnull hnumber
        · obtain ⟨more', cs, hcons, hbody, rfl⟩ := parseString_ok h
          exact .string (hskip.trans hcons) hbody
        · rw [hbrace] at hskip
          split at h
          · rename_i hnil
            obtain ⟨outs, hms, -⟩ := ihObject _ _ _ _ h
            cases hms
          · rename_i c more' hmore
            split_ifs at h with hc
            · injection h with h
              injection h with hout hrest
              rw [← hout, ← hrest]
              exact .emptyObject hskip (hc ▸ hmore)
            · obtain ⟨outs, hms, rfl⟩ := ihObject _ _ _ _ h
              rw [← hmore] at hms
              refine .object hskip (fun hhead => hc ?_) hms
              rw [hmore] at hhead
              exact Option.some.inj hhead
        · rw [hbracket] at hskip
          split at h
          · rename_i hnil
            obtain ⟨outs, hes, rfl⟩ := ihArray _ _ _ _ h
            rw [← hnil] at hes
            refine .array hskip (fun hhead => ?_) hes
            rw [hnil] at hhead
            exact absurd hhead (by simp)
          · rename_i c more' hmore
            split_ifs at h with hc
            · injection h with h
              injection h with hout hrest
              rw [← hout, ← hrest]
              exact .emptyArray hskip (hc ▸ hmore)
            · obtain ⟨outs, hes, rfl⟩ := ihArray _ _ _ _ h
              rw [← hmore] at hes
              refine .array hskip (fun hhead => hc ?_) hes
              rw [hmore] at hhead
              exact Option.some.inj hhead
        · obtain ⟨hword, hsplit⟩ := parseBool_ok h
          exact .word hword (hskip.trans hsplit)
        · obtain ⟨hword, hsplit⟩ := parseNull_ok h
          exact .word hword (hskip.trans hsplit)
        · injection h with h
          injection h with hout hrest
          rw [← hout, ← hrest]
          exact .number hskip hnumber
    · rw [arrayLoop] at h
      split at h
      · exact absurd h (by simp)
      · rename_i val more hval
        have hv := ihValue _ _ _ hval
        split at h
        · exact absurd h (by simp)
        · rename_i b more' hmore
          split_ifs at h with hclose hcomma
          · injection h with h
            injection h with hout hrest
            rw [← hout, ← hrest]
            exact ⟨[val], .lastElement hv (hclose ▸ hmore), rfl⟩
          · obtain ⟨outs, hes, rfl⟩ := ihArray _ _ _ _ h
            exact ⟨val :: outs, .element hv (hcomma ▸ hmore) hes, by rw [List.append_assoc]; rfl⟩
    · rw [objectLoop] at h
      split at h
      · exact absurd h (by simp)
      · rename_i key more hkey
        obtain ⟨body, cs, rfl, hbody, rfl⟩ := parseString_ok hkey
        split at h
        · exact absurd h (by simp)
        · rename_i more' hexpect
          have hcolon := expect_ok hexpect
          split at h
          · exact absurd h (by simp)
          · rename_i val more'' hval
            have hv := ihValue _ _ _ hval
            split at h
            · exact absurd h (by simp)
            · rename_i b next hmore
              split_ifs at h with hclose hcomma
              · injection h with h
                injection h with hout hrest
                rw [← hout, ← hrest]
                exact ⟨_, .lastMember hbody hcolon hv (hclose ▸ hmore), rfl⟩
              · obtain ⟨outs, hms, rfl⟩ := ihObject _ _ _ _ h
                exact ⟨_ :: outs, .member hbody hcolon hv (hcomma ▸ hmore) hms, by rw [List.append_assoc]; rfl⟩

/-! ## What keeps to the rules is parsed -/

theorem length_skipWhitespace_le (bytes : Bytes) : (skipWhitespace bytes).length ≤ bytes.length :=
  (List.dropWhile_suffix isAsciiWhitespace).length_le

theorem StringBody.length_lt {cs : List Char} (h : StringBody bytes cs rest) : rest.length < bytes.length := by
  induction h with
  | close rest => exact Nat.lt_succ_self _
  | plain _ _ _ ih => exact Nat.lt_succ_of_lt ih
  | escape _ _ ih => exact Nat.lt_succ_of_lt (Nat.lt_succ_of_lt ih)
  | unicode _ ih =>
    rw [List.length_drop] at ih
    simp only [List.length_cons]
    omega

theorem length_numberLoop (previous : Option UInt8) (bytes : Bytes) :
    (numberLoop previous bytes).2.length ≤ bytes.length := by
  induction bytes generalizing previous with
  | nil => exact Nat.le_refl 0
  | cons b bytes ih =>
    rw [numberLoop]
    split
    · split
      · exact Nat.le_refl _
      · exact Nat.le_succ_of_le (ih _)
    · exact Nat.le_refl _

theorem numberLoop_digit {b : UInt8} (h : isAsciiDigit b = true) (previous : Option UInt8) (rest : Bytes) :
    numberLoop previous (b :: rest) = (b :: (numberLoop (some b) rest).1, (numberLoop (some b) rest).2) := by
  have hplus : b ≠ ascii '+' := fun heq => absurd (heq ▸ h) (by decide)
  have hminus : b ≠ ascii '-' := fun heq => absurd (heq ▸ h) (by decide)
  rw [numberLoop, h]
  simp only [Bool.true_or, if_true]
  rw [if_neg (fun hsign => hsign.1.elim hplus hminus)]

theorem length_numberRun {b : UInt8} (hb : b = ascii '-' ∨ isAsciiDigit b = true) (rest : Bytes) :
    (numberRun (b :: rest)).2.length < (b :: rest).length := by
  rw [numberRun]
  split
  · exact Nat.lt_succ_of_le (length_numberLoop _ _)
  · rename_i hminus
    rw [numberLoop_digit (hb.resolve_left hminus)]
    exact Nat.lt_succ_of_le (length_numberLoop _ _)

theorem utf8_word_ne_nil {word : List Char} (h : word ∈ words) : utf8 word ≠ [] := by
  rw [words, List.mem_cons, List.mem_cons, List.mem_singleton] at h
  rcases h with rfl | rfl | rfl <;> decide

theorem length_skipped {more : Bytes} {b : UInt8} (h : skipWhitespace bytes = b :: more) :
    more.length < bytes.length := by
  have hle := length_skipWhitespace_le bytes
  rw [h, List.length_cons] at hle
  omega

/-- Whatever is read is not empty. -/
theorem Reads.length_lt {kind : Kind} {outs : List (List Char)} (h : Reads kind bytes outs rest) :
    rest.length < bytes.length := by
  induction h with
  | @word bytes word rest hword hskip =>
    have hle := length_skipWhitespace_le bytes
    have hpos := List.length_pos_of_ne_nil (utf8_word_ne_nil hword)
    rw [hskip, List.length_append] at hle
    omega
  | @number bytes b more hskip hb =>
    have hlt := length_numberRun hb more
    have hle := length_skipWhitespace_le bytes
    rw [hskip] at hle
    omega
  | string hskip hs => exact Nat.lt_trans hs.length_lt (length_skipped hskip)
  | emptyArray hskip hclose => exact Nat.lt_trans (length_skipped hclose) (length_skipped hskip)
  | array hskip _ _ ih => exact Nat.lt_trans (Nat.lt_of_lt_of_le ih (length_skipWhitespace_le _)) (length_skipped hskip)
  | emptyObject hskip hclose => exact Nat.lt_trans (length_skipped hclose) (length_skipped hskip)
  | object hskip _ _ ih => exact Nat.lt_trans (Nat.lt_of_lt_of_le ih (length_skipWhitespace_le _)) (length_skipped hskip)
  | lastElement _ hclose ih => exact Nat.lt_trans (length_skipped hclose) ih
  | element _ hcomma _ ihv ihes =>
    exact Nat.lt_trans (Nat.lt_of_lt_of_le ihes (length_skipWhitespace_le _)) (Nat.lt_trans (length_skipped hcomma) ihv)
  | lastMember hk hcolon _ hclose ih =>
    have hvalue := Nat.lt_of_lt_of_le ih (length_skipWhitespace_le _)
    exact Nat.lt_succ_of_lt (Nat.lt_trans (length_skipped hclose)
      (Nat.lt_trans hvalue (Nat.lt_trans (length_skipped hcolon) hk.length_lt)))
  | member hk hcolon _ hcomma _ ihv ihms =>
    have hvalue := Nat.lt_of_lt_of_le ihv (length_skipWhitespace_le _)
    have hrest := Nat.lt_of_lt_of_le ihms (length_skipWhitespace_le _)
    exact Nat.lt_succ_of_lt (Nat.lt_trans hrest (Nat.lt_trans (length_skipped hcomma)
      (Nat.lt_trans hvalue (Nat.lt_trans (length_skipped hcolon) hk.length_lt))))

/-- What parsing gives for what was read, with fuel twice the bytes. -/
def Parses : Kind → Bytes → List (List Char) → Bytes → Prop
  | .value, bytes, outs, rest =>
    ∀ out, outs = [out] → ∀ fuel, 2 * bytes.length + 1 ≤ fuel → parseValue fuel bytes = .ok (out, rest)
  | .elements, bytes, outs, rest => ∀ before fuel, 2 * bytes.length + 2 ≤ fuel →
      arrayLoop fuel before bytes = .ok ('[' :: (List.intercalate [','] (before ++ outs) ++ [']']), rest)
  | .members, bytes, outs, rest => ∀ before fuel, 2 * bytes.length + 2 ≤ fuel →
      objectLoop fuel before bytes = .ok ('{' :: (List.intercalate [','] (before ++ outs) ++ ['}']), rest)

theorem parseValue_word {word : List Char} (hword : word ∈ words)
    (hskip : skipWhitespace bytes = utf8 word ++ rest) (fuel : ℕ) : parseValue (fuel + 1) bytes = .ok (word, rest) := by
  rw [parseValue, hskip]
  rw [words, List.mem_cons, List.mem_cons, List.mem_singleton] at hword
  rcases hword with rfl | rfl | rfl
  · change parseBool (utf8 ['t', 'r', 'u', 'e'] ++ rest) = _
    rw [parseBool, dropPrefix?_append]
  · change parseBool (utf8 ['f', 'a', 'l', 's', 'e'] ++ rest) = _
    have hnot : (utf8 ['f', 'a', 'l', 's', 'e'] ++ rest).dropPrefix? (utf8 ['t', 'r', 'u', 'e']) = none := rfl
    rw [parseBool, hnot, dropPrefix?_append]
  · change parseNull (utf8 ['n', 'u', 'l', 'l'] ++ rest) = _
    rw [parseNull, dropPrefix?_append]

theorem parseValue_number {bytes more : Bytes} {b : UInt8} (hskip : skipWhitespace bytes = b :: more)
    (hb : b = ascii '-' ∨ isAsciiDigit b = true) (fuel : ℕ) :
    parseValue (fuel + 1) bytes = .ok ((numberRun (b :: more)).1.map byteChar, (numberRun (b :: more)).2) := by
  have hne : ∀ c, (ascii c ≠ ascii '-' ∧ isAsciiDigit (ascii c) = false) → b ≠ ascii c := by
    rintro c ⟨hminus, hdigit⟩ rfl
    exact hb.elim hminus (fun h => absurd (hdigit.symm.trans h) Bool.false_ne_true)
  rw [parseValue, hskip]
  dsimp only
  rw [if_neg (hne '"' (by decide)), if_neg (hne '{' (by decide)), if_neg (hne '[' (by decide)),
    if_neg (not_or.mpr ⟨hne 't' (by decide), hne 'f' (by decide)⟩), if_neg (hne 'n' (by decide)), if_pos hb]
  rfl

theorem parseValue_array {bytes more : Bytes} (hskip : skipWhitespace bytes = ascii '[' :: more)
    (hopen : (skipWhitespace more).head? ≠ some (ascii ']')) (fuel : ℕ) :
    parseValue (fuel + 1) bytes = arrayLoop fuel [] (skipWhitespace more) := by
  rw [parseValue, hskip]
  dsimp only
  rw [if_neg (by decide), if_neg (by decide), if_pos rfl]
  cases hmore : skipWhitespace more with
  | nil => rfl
  | cons c rest =>
    rw [hmore] at hopen
    exact if_neg fun hc => hopen (congrArg some hc)

theorem parseValue_object {bytes more : Bytes} (hskip : skipWhitespace bytes = ascii '{' :: more)
    (hopen : (skipWhitespace more).head? ≠ some (ascii '}')) (fuel : ℕ) :
    parseValue (fuel + 1) bytes = objectLoop fuel [] (skipWhitespace more) := by
  rw [parseValue, hskip]
  dsimp only
  rw [if_neg (by decide), if_pos rfl]
  cases hmore : skipWhitespace more with
  | nil => rfl
  | cons c rest =>
    rw [hmore] at hopen
    exact if_neg fun hc => hopen (congrArg some hc)

theorem parses_of_reads {kind : Kind} {outs : List (List Char)}
    (h : Reads kind bytes outs rest) : Parses kind bytes outs rest := by
  induction h with
  | word hword hskip =>
    rintro out hout (_ | fuel) hfuel
    · exact absurd hfuel (by omega)
    · obtain rfl := List.singleton_inj.mp hout
      exact parseValue_word hword hskip fuel
  | number hskip hb =>
    rintro out hout (_ | fuel) hfuel
    · exact absurd hfuel (by omega)
    · obtain rfl := List.singleton_inj.mp hout
      exact parseValue_number hskip hb fuel
  | string hskip hs =>
    rintro out hout (_ | fuel) hfuel
    · exact absurd hfuel (by omega)
    · obtain rfl := List.singleton_inj.mp hout
      rw [parseValue, hskip]
      dsimp only
      rw [if_pos rfl]
      exact parseString_of_body hs
  | emptyArray hskip hclose =>
    rintro out hout (_ | fuel) hfuel
    · exact absurd hfuel (by omega)
    · obtain rfl := List.singleton_inj.mp hout
      rw [parseValue, hskip]
      dsimp only
      rw [if_neg (by decide), if_neg (by decide), if_pos rfl, hclose]
      exact if_pos rfl
  | @array bytes more outs rest hskip hopen hes ih =>
    rintro out hout (_ | fuel) hfuel
    · exact absurd hfuel (by omega)
    · obtain rfl := List.singleton_inj.mp hout
      have hmore := length_skipped hskip
      have hle := length_skipWhitespace_le more
      rw [parseValue_array hskip hopen]
      exact ih [] fuel (by omega)
  | emptyObject hskip hclose =>
    rintro out hout (_ | fuel) hfuel
    · exact absurd hfuel (by omega)
    · obtain rfl := List.singleton_inj.mp hout
      rw [parseValue, hskip]
      dsimp only
      rw [if_neg (by decide), if_pos rfl, hclose]
      exact if_pos rfl
  | @object bytes more outs rest hskip hopen hms ih =>
    rintro out hout (_ | fuel) hfuel
    · exact absurd hfuel (by omega)
    · obtain rfl := List.singleton_inj.mp hout
      have hmore := length_skipped hskip
      have hle := length_skipWhitespace_le more
      rw [parseValue_object hskip hopen]
      exact ih [] fuel (by omega)
  | lastElement hv hclose ih =>
    rintro before (_ | fuel) hfuel
    · exact absurd hfuel (by omega)
    · rw [arrayLoop, ih _ rfl fuel (by omega)]
      dsimp only
      rw [hclose]
      exact if_pos rfl
  | @element bytes out more more' outs rest hv hcomma hes ihv ihes =>
    rintro before (_ | fuel) hfuel
    · exact absurd hfuel (by omega)
    · have hmore := hv.length_lt
      have hmore' := length_skipped hcomma
      have hle := length_skipWhitespace_le more'
      rw [arrayLoop, ihv _ rfl fuel (by omega)]
      dsimp only
      rw [hcomma]
      dsimp only
      rw [if_neg (by decide), if_pos rfl, ihes (before ++ [out]) fuel (by omega), List.append_assoc]
      rfl
  | @lastMember bytes key more more' out more'' rest hk hcolon hv hclose ih =>
    rintro before (_ | fuel) hfuel
    · exact absurd hfuel (by omega)
    · have hmore := hk.length_lt
      have hmore' := length_skipped hcolon
      have hle := length_skipWhitespace_le more'
      rw [List.length_cons] at hfuel
      rw [objectLoop, parseString_of_body hk]
      dsimp only
      rw [hcolon, expect, if_pos rfl]
      dsimp only
      rw [ih _ rfl fuel (by omega)]
      dsimp only
      rw [hclose]
      exact if_pos rfl
  | @member bytes key more more' out more'' next outs rest hk hcolon hv hcomma hms ihv ihms =>
    rintro before (_ | fuel) hfuel
    · exact absurd hfuel (by omega)
    · have hmore := hk.length_lt
      have hmore' := length_skipped hcolon
      have hle := length_skipWhitespace_le more'
      have hmore'' := hv.length_lt
      have hnext := length_skipped hcomma
      have hle' := length_skipWhitespace_le next
      rw [List.length_cons] at hfuel
      rw [objectLoop, parseString_of_body hk]
      dsimp only
      rw [hcolon, expect, if_pos rfl]
      dsimp only
      rw [ihv _ rfl fuel (by omega)]
      dsimp only
      rw [hcomma]
      dsimp only
      rw [if_neg (by decide), if_pos rfl, ihms (before ++ [quoted key ++ ':' :: out]) fuel (by omega), List.append_assoc]
      rfl

/-- The parser reads a value if and only if the rules do. -/
theorem parse_eq_ok_iff {s out : List Char} {rest : Bytes} :
    parse s = .ok (out, rest) ↔ Reads .value (utf8 s) [out] rest :=
  ⟨fun h => (reads_of_parse _).1 _ _ _ h, fun h => parses_of_reads h out rfl _ (Nat.le_refl _)⟩

theorem ntscJsonIsValid_iff {s : List Char} : ntscJsonIsValid s = true ↔ ∃ out rest, Reads .value (utf8 s) [out] rest := by
  rw [ntscJsonIsValid]
  constructor
  · intro h
    split at h
    · rename_i r hr
      exact ⟨r.1, r.2, parse_eq_ok_iff.mp hr⟩
    · exact absurd h Bool.false_ne_true
  · rintro ⟨out, rest, h⟩
    rw [parse_eq_ok_iff.mpr h]

end Neutron.JsonParser
