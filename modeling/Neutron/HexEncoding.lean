import Neutron.Utf8Bytes

/-!
# Hexadecimal text

`encoding.hex_encode` and `encoding.hex_decode`. The decoder hands each window of two bytes to
`u8::from_str_radix`, which also reads a sign, so that a plus may stand in for a leading digit.
-/

namespace Neutron.Encoding

/-- `char::to_digit(16)` -/
def toDigit (c : Char) : Option ℕ :=
  if '0' ≤ c ∧ c ≤ '9' then some (c.toNat - '0'.toNat)
  else if 'a' ≤ c ∧ c ≤ 'f' then some (c.toNat - 'a'.toNat + 10)
  else if 'A' ≤ c ∧ c ≤ 'F' then some (c.toNat - 'A'.toNat + 10)
  else none

/-- The digits of a `u8` in base sixteen, with the overflow of each step checked. -/
def fromDigits : ℕ → List Char → Option UInt8
  | acc, [] => some (UInt8.ofNat acc)
  | acc, c :: rest =>
    match toDigit c with
    | none => none
    | some d => if acc * 16 + d < 256 then fromDigits (acc * 16 + d) rest else none

/-- `u8::from_str_radix(src, 16).ok()` -/
def fromStrRadix : List Char → Option UInt8
  | [] => none
  | ['+'] => none
  | ['-'] => none
  | '+' :: digits => fromDigits 0 digits
  | digits => fromDigits 0 digits

/-- `format!("{:02x}", b)` -/
def hexByte (b : UInt8) : List Char := [Nat.digitChar (b.toNat / 16), Nat.digitChar (b.toNat % 16)]

def ntscEncodingHexEncode (s : List Char) : List Char := (utf8 s).flatMap hexByte

/-- The loop over the windows of two bytes. -/
def hexBytes : List UInt8 → Except String (List UInt8)
  | a :: b :: rest =>
    let byteStr := (fromUtf8? [a, b]).getD []
    match fromStrRadix byteStr with
    | some byte => (hexBytes rest).map (byte :: ·)
    | none => .error ("encoding.hex_decode: invalid hex byte '" ++ String.ofList byteStr ++ "'")
  | _ => .ok []

theorem hexBytes_cons (a b : UInt8) (rest : List UInt8) :
    hexBytes (a :: b :: rest) =
      match fromStrRadix ((fromUtf8? [a, b]).getD []) with
      | some byte => (hexBytes rest).map (byte :: ·)
      | none => .error ("encoding.hex_decode: invalid hex byte '" ++ String.ofList ((fromUtf8? [a, b]).getD []) ++ "'") :=
  rfl

def ntscEncodingHexDecode (hex : List Char) : Except String (List Char) :=
  if (utf8 hex).length % 2 ≠ 0 then .error "encoding.hex_decode: hex string must have even length"
  else
    match hexBytes (utf8 hex) with
    | .error message => .error message
    | .ok bytes =>
      match fromUtf8? bytes with
      | some decoded => .ok decoded
      | none => .error "encoding.hex_decode: decoded data is not valid UTF-8"

/-! ## Digits -/

def IsHexChar (c : Char) : Prop := ('0' ≤ c ∧ c ≤ '9') ∨ ('a' ≤ c ∧ c ≤ 'f') ∨ ('A' ≤ c ∧ c ≤ 'F')

def hexValue (c : Char) : ℕ := (toDigit c).getD 0

theorem isHexChar_iff {c : Char} : IsHexChar c ↔ ∃ n, toDigit c = some n := by
  unfold IsHexChar toDigit
  split
  · rename_i h
    exact ⟨fun _ => ⟨_, rfl⟩, fun _ => Or.inl h⟩
  · split
    · rename_i h
      exact ⟨fun _ => ⟨_, rfl⟩, fun _ => Or.inr (Or.inl h)⟩
    · split
      · rename_i h
        exact ⟨fun _ => ⟨_, rfl⟩, fun _ => Or.inr (Or.inr h)⟩
      · rename_i h₁ h₂ h₃
        constructor
        · rintro (h | h | h)
          · exact absurd h h₁
          · exact absurd h h₂
          · exact absurd h h₃
        · rintro ⟨n, hn⟩
          cases hn

theorem isAscii_of_toDigit {c : Char} {n : ℕ} (h : toDigit c = some n) : IsAscii c := by
  have hle : ∀ {d : Char}, c ≤ d → d.toNat < 128 → IsAscii c := fun hcd hd =>
    Nat.lt_of_le_of_lt (UInt32.le_iff_toNat_le.mp hcd) hd
  rcases isHexChar_iff.mpr ⟨n, h⟩ with hc | hc | hc
  · exact hle hc.2 (by decide)
  · exact hle hc.2 (by decide)
  · exact hle hc.2 (by decide)

theorem toDigit_small : ∀ i : Fin 128, ∀ n ∈ toDigit (Char.ofNat i), n < 16 ∧ Nat.digitChar n = (Char.ofNat i).toLower := by
  decide

theorem toDigit_spec {c : Char} {n : ℕ} (h : toDigit c = some n) : n < 16 ∧ Nat.digitChar n = c.toLower := by
  have hlt : c.toNat < 128 := isAscii_of_toDigit h
  have hsmall := toDigit_small ⟨c.toNat, hlt⟩ n
  rw [Char.ofNat_toNat] at hsmall
  exact hsmall h

theorem toDigit_digitChar : ∀ n < 16, toDigit (Nat.digitChar n) = some n := by decide

theorem hexValue_of_toDigit {c : Char} {n : ℕ} (h : toDigit c = some n) : hexValue c = n := by
  rw [hexValue, h, Option.getD_some]

/-! ## Windows -/

/-- The two characters of a window, and the byte read from them. -/
inductive Window : Char → Char → UInt8 → Prop
  | digits {a b : Char} {x y : ℕ} (ha : toDigit a = some x) (hb : toDigit b = some y) :
      Window a b (UInt8.ofNat (16 * x + y))
  | sign {b : Char} {y : ℕ} (hb : toDigit b = some y) : Window '+' b (UInt8.ofNat y)

/-- The texts the decoder's loop accepts, with their bytes. -/
inductive Windows : List Char → List UInt8 → Prop
  | nil : Windows [] []
  | cons {a b : Char} {byte : UInt8} {rest : List Char} {bytes : List UInt8} (h : Window a b byte)
      (hrest : Windows rest bytes) : Windows (a :: b :: rest) (byte :: bytes)

variable {byte : UInt8} {a b : Char}

theorem Window.ascii (h : Window a b byte) : IsAscii a ∧ IsAscii b := by
  cases h with
  | digits ha hb => exact ⟨isAscii_of_toDigit ha, isAscii_of_toDigit hb⟩
  | sign hb => exact ⟨by decide, isAscii_of_toDigit hb⟩

theorem fromDigits_one {d : Char} {y : ℕ} (hd : toDigit d = some y) (acc : ℕ) (hacc : acc < 16) :
    fromDigits acc [d] = some (UInt8.ofNat (16 * acc + y)) := by
  have hy := (toDigit_spec hd).1
  rw [fromDigits, hd]
  simp only [fromDigits]
  rw [if_pos (by omega), Nat.mul_comm acc 16]

theorem fromDigits_two {c d : Char} {x y : ℕ} (hc : toDigit c = some x) (hd : toDigit d = some y) :
    fromDigits 0 [c, d] = some (UInt8.ofNat (16 * x + y)) := by
  have hx := (toDigit_spec hc).1
  rw [fromDigits, hc]
  simp only [Nat.zero_mul, Nat.zero_add]
  rw [if_pos (by omega)]
  exact fromDigits_one hd x hx

theorem fromStrRadix_unsigned (h : a ≠ '+') : fromStrRadix [a, b] = fromDigits 0 [a, b] := by
  rw [fromStrRadix]
  · intro hnil
    cases hnil
  · intro hplus
    cases hplus
  · intro hminus
    cases hminus
  · intro digits hsign
    exact h (List.cons.inj hsign).1

theorem fromStrRadix_of_window (h : Window a b byte) : fromStrRadix [a, b] = some byte := by
  cases h with
  | sign hb =>
    have hone := fromDigits_one hb 0 (by decide)
    rw [Nat.mul_zero, Nat.zero_add] at hone
    exact hone
  | digits ha hb =>
    have hplus : a ≠ '+' := by
      rintro rfl
      cases ha
    rw [fromStrRadix_unsigned hplus]
    exact fromDigits_two ha hb

theorem fromDigits_head {c : Char} {cs : List Char} {acc : ℕ}
    (h : fromDigits acc (c :: cs) = some byte) : ∃ n, toDigit c = some n := by
  rw [fromDigits] at h
  cases hc : toDigit c with
  | none =>
    rw [hc] at h
    cases h
  | some n => exact ⟨n, rfl⟩

theorem fromDigits_inv {cs : List Char} {acc : ℕ} (h : fromDigits acc cs = some byte) :
    ∀ c ∈ cs, ∃ n, toDigit c = some n := by
  induction cs generalizing acc with
  | nil => exact fun c hc => absurd hc List.not_mem_nil
  | cons c cs ih =>
    obtain ⟨n, hn⟩ := fromDigits_head h
    rw [fromDigits, hn] at h
    dsimp only at h
    split at h
    · exact List.forall_mem_cons.mpr ⟨⟨n, hn⟩, ih h⟩
    · cases h

/-- What the number parser reads is ASCII, so that a window it accepts is two characters. -/
theorem ascii_of_fromStrRadix {cs : List Char} (h : fromStrRadix cs = some byte) : ∀ c ∈ cs, IsAscii c := by
  have hdigits : ∀ {acc : ℕ} {cs : List Char}, fromDigits acc cs = some byte → ∀ c ∈ cs, IsAscii c := by
    intro acc cs h c hc
    obtain ⟨n, hn⟩ := fromDigits_inv h c hc
    exact isAscii_of_toDigit hn
  unfold fromStrRadix at h
  split at h
  · cases h
  · cases h
  · cases h
  · exact List.forall_mem_cons.mpr ⟨by decide, hdigits h⟩
  · exact hdigits h

theorem window_of_fromStrRadix (h : fromStrRadix [a, b] = some byte) : Window a b byte := by
  by_cases ha : a = '+'
  · subst ha
    have hdigits : fromDigits 0 [b] = some byte := h
    obtain ⟨y, hy⟩ := fromDigits_head hdigits
    have hone := fromDigits_one hy 0 (by decide)
    rw [Nat.mul_zero, Nat.zero_add] at hone
    obtain rfl := Option.some.inj (hone.symm.trans hdigits)
    exact Window.sign hy
  · rw [fromStrRadix_unsigned ha] at h
    obtain ⟨x, hx⟩ := fromDigits_inv h a List.mem_cons_self
    obtain ⟨y, hy⟩ := fromDigits_inv h b (List.mem_cons_of_mem a List.mem_cons_self)
    obtain rfl := Option.some.inj ((fromDigits_two hx hy).symm.trans h)
    exact Window.digits hx hy

/-! ## The loop over the windows -/

variable {bytes : List UInt8}

theorem fromUtf8?_eq_some_iff {s : List Char} : fromUtf8? bytes = some s ↔ bytes = utf8 s := by
  constructor
  · intro h
    rw [fromUtf8?] at h
    obtain ⟨chars, hchars, rfl⟩ := Option.map_eq_some_iff.mp h
    have hsome : (ByteArray.mk bytes.toArray).utf8Decode?.isSome := Option.isSome_iff_exists.mpr ⟨chars, hchars⟩
    have hencode := ByteArray.utf8Encode_get_utf8Decode? (h := hsome)
    rw [Option.get_of_eq_some _ hchars] at hencode
    have hdata := congrArg (fun b => b.data.toList) hencode
    rw [List.utf8Encode] at hdata
    rw [utf8]
    simpa only [List.toList_data_toByteArray] using hdata.symm
  · rintro rfl
    exact fromUtf8?_utf8 s

theorem utf8_two (ha : IsAscii a) (hb : IsAscii b) (rest : List Char) :
    utf8 (a :: b :: rest) = UInt8.ofNat a.toNat :: UInt8.ofNat b.toNat :: utf8 rest := by
  rw [utf8_ascii_cons ha, utf8_ascii_cons hb]

variable {h : List Char}

theorem hexBytes_of_windows (hw : Windows h bytes) : hexBytes (utf8 h) = .ok bytes := by
  induction hw with
  | nil => rfl
  | cons hwindow _ ih =>
    obtain ⟨ha, hb⟩ := hwindow.ascii
    have htext := fromUtf8?_eq_some_iff.mpr (utf8_two ha hb []).symm
    rw [utf8_two ha hb, hexBytes_cons]
    rw [utf8_nil] at htext
    simp only [htext, Option.getD_some, fromStrRadix_of_window hwindow, ih, Except.map]

theorem length_of_windows (hw : Windows h bytes) : h.length % 2 = 0 ∧ (utf8 h).length = h.length := by
  induction hw with
  | nil => exact ⟨rfl, rfl⟩
  | cons hwindow _ ih =>
    obtain ⟨ha, hb⟩ := hwindow.ascii
    rw [utf8_two ha hb]
    simp only [List.length_cons]
    omega

/-- A window of the bytes that the loop accepts is the UTF-8 text of two characters. -/
theorem window_of_bytes {a b : UInt8} (h : fromStrRadix ((fromUtf8? [a, b]).getD []) = some byte) :
    ∃ c d, IsAscii c ∧ IsAscii d ∧ a = UInt8.ofNat c.toNat ∧ b = UInt8.ofNat d.toNat ∧ Window c d byte := by
  cases htext : fromUtf8? [a, b] with
  | none =>
    rw [htext] at h
    cases h
  | some cs =>
    rw [htext, Option.getD_some] at h
    have hbytes := fromUtf8?_eq_some_iff.mp htext
    have hascii := ascii_of_fromStrRadix h
    cases cs with
    | nil => cases hbytes
    | cons c cs =>
      have hc := hascii c List.mem_cons_self
      rw [utf8_ascii_cons hc] at hbytes
      cases cs with
      | nil => cases hbytes
      | cons d cs =>
        have hd := hascii d (List.mem_cons_of_mem c List.mem_cons_self)
        rw [utf8_ascii_cons hd] at hbytes
        cases cs with
        | nil =>
          obtain ⟨ha, hb, -⟩ := List.cons_eq_cons.mp hbytes |>.imp_right List.cons_eq_cons.mp
          exact ⟨c, d, hc, hd, ha, hb, window_of_fromStrRadix h⟩
        | cons e cs =>
          have he := hascii e (List.mem_cons_of_mem c (List.mem_cons_of_mem d List.mem_cons_self))
          rw [utf8_ascii_cons he] at hbytes
          cases hbytes

theorem windows_of_hexBytes : ∀ {bytes read : List UInt8}, bytes.length % 2 = 0 → hexBytes bytes = .ok read →
    ∃ h, bytes = utf8 h ∧ Windows h read
  | [], read, _, h => by
    cases h
    exact ⟨[], rfl, Windows.nil⟩
  | [_], _, hparity, _ => absurd hparity (by decide : ¬ 1 % 2 = 0)
  | a :: b :: rest, read, hparity, h => by
    rw [hexBytes_cons] at h
    cases hbyte : fromStrRadix ((fromUtf8? [a, b]).getD []) with
    | none =>
      rw [hbyte] at h
      cases h
    | some byte =>
      rw [hbyte] at h
      cases hrest : hexBytes rest with
      | error message =>
        rw [hrest] at h
        cases h
      | ok bytes =>
        rw [hrest] at h
        obtain ⟨c, d, hc, hd, rfl, rfl, hwindow⟩ := window_of_bytes hbyte
        have hlength : rest.length % 2 = 0 := by
          simp only [List.length_cons] at hparity
          omega
        obtain ⟨cs, rfl, hwindows⟩ := windows_of_hexBytes hlength hrest
        cases h
        exact ⟨c :: d :: cs, (utf8_two hc hd cs).symm, Windows.cons hwindow hwindows⟩

theorem utf8_injective {s t : List Char} (h : utf8 s = utf8 t) : s = t :=
  Option.some.inj ((fromUtf8?_utf8 s).symm.trans ((congrArg fromUtf8? h).trans (fromUtf8?_utf8 t)))

/-- The decoder succeeds with `t` exactly on texts whose windows hold the bytes of `t`. -/
theorem hexDecode_eq_ok_iff {h t : List Char} : ntscEncodingHexDecode h = .ok t ↔ Windows h (utf8 t) := by
  constructor
  · intro hok
    rw [ntscEncodingHexDecode] at hok
    split at hok
    · cases hok
    · rename_i hparity
      cases hbytes : hexBytes (utf8 h) with
      | error message =>
        rw [hbytes] at hok
        cases hok
      | ok bytes =>
        obtain ⟨cs, hcs, hwindows⟩ := windows_of_hexBytes (not_not.mp hparity) hbytes
        obtain rfl := utf8_injective hcs
        rw [hbytes] at hok
        dsimp only at hok
        cases hdecoded : fromUtf8? bytes with
        | none =>
          rw [hdecoded] at hok
          cases hok
        | some decoded =>
          rw [hdecoded] at hok
          cases hok
          rwa [← fromUtf8?_eq_some_iff.mp hdecoded]
  · intro hw
    obtain ⟨hparity, hlength⟩ := length_of_windows hw
    rw [ntscEncodingHexDecode, if_neg (by omega), hexBytes_of_windows hw]
    simp only [fromUtf8?_utf8]

/-! ## Round trips -/

theorem window_hexByte (b : UInt8) : Window (Nat.digitChar (b.toNat / 16)) (Nat.digitChar (b.toNat % 16)) b := by
  have hlt := b.toNat_lt
  have hwindow := Window.digits (toDigit_digitChar (b.toNat / 16) (by omega)) (toDigit_digitChar (b.toNat % 16) (by omega))
  rwa [Nat.div_add_mod, UInt8.ofNat_toNat] at hwindow

theorem windows_hexBytes (bytes : List UInt8) : Windows (bytes.flatMap hexByte) bytes := by
  induction bytes with
  | nil => exact Windows.nil
  | cons b bytes ih => exact Windows.cons (window_hexByte b) ih

theorem hexDecode_hexEncode (s : List Char) : ntscEncodingHexDecode (ntscEncodingHexEncode s) = .ok s :=
  hexDecode_eq_ok_iff.mpr (windows_hexBytes (utf8 s))

/-- The byte of each pair of digits. -/
def pairBytes : List Char → List UInt8
  | a :: b :: rest => UInt8.ofNat (16 * hexValue a + hexValue b) :: pairBytes rest
  | _ => []

/-- Digits in pairs that hold valid UTF-8. -/
def HexText (h : List Char) : Prop :=
  h.length % 2 = 0 ∧ (∀ c ∈ h, IsHexChar c) ∧ ∃ t, pairBytes h = utf8 t

/-- Success on the hexadecimal texts only, and on each of them with the text it encodes. -/
def HexExact (h : List Char) : Prop :=
  ((∃ t, ntscEncodingHexDecode h = .ok t) ↔ HexText h) ∧
    ∀ t, ntscEncodingHexDecode h = .ok t → ntscEncodingHexEncode t = h.map Char.toLower

/-- Pairs of a digit, or a plus, and a digit. -/
def SignPairs : List Char → Prop
  | [] => True
  | [_] => False
  | a :: b :: rest => (IsHexChar a ∨ a = '+') ∧ IsHexChar b ∧ SignPairs rest

/-- A plus stands in for a digit somewhere, and the pairs still hold valid UTF-8. -/
def SignedText (h : List Char) : Prop := SignPairs h ∧ '+' ∈ h ∧ ∃ t, pairBytes h = utf8 t

theorem windows_pairBytes : ∀ {h : List Char}, SignPairs h → Windows h (pairBytes h)
  | [], _ => Windows.nil
  | [_], hp => hp.elim
  | a :: b :: rest, hp => by
    obtain ⟨ha, hb, hrest⟩ := hp
    obtain ⟨y, hy⟩ := isHexChar_iff.mp hb
    rw [pairBytes]
    refine Windows.cons ?_ (windows_pairBytes hrest)
    rw [hexValue_of_toDigit hy]
    rcases ha with ha | rfl
    · obtain ⟨x, hx⟩ := isHexChar_iff.mp ha
      rw [hexValue_of_toDigit hx]
      exact Window.digits hx hy
    · have hzero : hexValue '+' = 0 := by decide
      rw [hzero, Nat.mul_zero, Nat.zero_add]
      exact Window.sign hy

theorem Windows.signPairs (hw : Windows h bytes) : SignPairs h := by
  induction hw with
  | nil => exact trivial
  | cons hwindow _ ih =>
    cases hwindow with
    | digits ha hb => exact ⟨Or.inl (isHexChar_iff.mpr ⟨_, ha⟩), isHexChar_iff.mpr ⟨_, hb⟩, ih⟩
    | sign hb => exact ⟨Or.inr rfl, isHexChar_iff.mpr ⟨_, hb⟩, ih⟩

theorem Windows.functional {bytes bytes' : List UInt8} (hw : Windows h bytes) (hw' : Windows h bytes') :
    bytes = bytes' :=
  Except.ok.inj ((hexBytes_of_windows hw).symm.trans (hexBytes_of_windows hw'))

theorem decodes_iff : (∃ t, ntscEncodingHexDecode h = .ok t) ↔ SignPairs h ∧ ∃ t, pairBytes h = utf8 t := by
  constructor
  · rintro ⟨t, ht⟩
    have hw := hexDecode_eq_ok_iff.mp ht
    exact ⟨hw.signPairs, t, (windows_pairBytes hw.signPairs).functional hw⟩
  · rintro ⟨hp, t, ht⟩
    have hw := windows_pairBytes hp
    rw [ht] at hw
    exact ⟨t, hexDecode_eq_ok_iff.mpr hw⟩

theorem signPairs_of_hex : ∀ {h : List Char}, h.length % 2 = 0 → (∀ c ∈ h, IsHexChar c) → SignPairs h
  | [], _, _ => trivial
  | [_], hparity, _ => absurd hparity (by decide : ¬ 1 % 2 = 0)
  | a :: b :: rest, hparity, hhex => by
    have hrest : rest.length % 2 = 0 := by
      simp only [List.length_cons] at hparity
      omega
    obtain ⟨ha, hb, htail⟩ := List.forall_mem_cons.mp hhex |>.imp_right List.forall_mem_cons.mp
    exact ⟨Or.inl ha, hb, signPairs_of_hex hrest htail⟩

theorem hex_of_signPairs : ∀ {h : List Char}, SignPairs h → '+' ∉ h → ∀ c ∈ h, IsHexChar c
  | [], _, _ => fun c hc => absurd hc List.not_mem_nil
  | [_], hp, _ => hp.elim
  | a :: b :: rest, hp, hplus => by
    obtain ⟨ha, hb, hrest⟩ := hp
    have htail : '+' ∉ rest := fun hmem => hplus (List.mem_cons_of_mem a (List.mem_cons_of_mem b hmem))
    have hfirst : IsHexChar a := by
      rcases ha with ha | rfl
      · exact ha
      · exact absurd List.mem_cons_self hplus
    exact List.forall_mem_cons.mpr ⟨hfirst, List.forall_mem_cons.mpr ⟨hb, hex_of_signPairs hrest htail⟩⟩

/-- Windows of two digits are the encoding of their bytes, but for the case of the letters. -/
theorem hexEncode_of_windows (hw : Windows h bytes) (hplus : '+' ∉ h) :
    bytes.flatMap hexByte = h.map Char.toLower := by
  induction hw with
  | nil => rfl
  | cons hwindow _ ih =>
    rename_i a b byte rest bytes _
    have htail : '+' ∉ rest := fun hmem => hplus (List.mem_cons_of_mem a (List.mem_cons_of_mem b hmem))
    rw [List.flatMap_cons, ih htail]
    cases hwindow with
    | sign hb => exact absurd List.mem_cons_self hplus
    | digits ha hb =>
      rename_i x y
      obtain ⟨hx, hlower⟩ := toDigit_spec ha
      obtain ⟨hy, hlower'⟩ := toDigit_spec hb
      have hvalue : (UInt8.ofNat (16 * x + y)).toNat = 16 * x + y := by
        rw [UInt8.toNat_ofNat', Nat.mod_eq_of_lt (by omega)]
      have hhigh : (16 * x + y) / 16 = x := by omega
      have hlow : (16 * x + y) % 16 = y := by omega
      rw [hexByte, hvalue, hhigh, hlow, hlower, hlower']
      rfl

/-- The decoder is exact except on texts where a plus stands in for a digit. -/
theorem hexDecode_exact_iff (h s : List Char) :
    (HexExact h ↔ ¬ SignedText h) ∧ ntscEncodingHexDecode (ntscEncodingHexEncode s) = .ok s := by
  refine ⟨⟨?_, fun hsigned => ?_⟩, hexDecode_hexEncode s⟩
  · rintro ⟨haccepts, -⟩ ⟨hpairs, hplus, hvalid⟩
    obtain ⟨-, hhex, -⟩ := haccepts.mp (decodes_iff.mpr ⟨hpairs, hvalid⟩)
    exact absurd (hhex '+' hplus) (by unfold IsHexChar; decide)
  · have hunsigned : ∀ t, ntscEncodingHexDecode h = .ok t → '+' ∉ h := fun t ht hplus =>
      hsigned ⟨(decodes_iff.mp ⟨t, ht⟩).1, hplus, (decodes_iff.mp ⟨t, ht⟩).2⟩
    constructor
    · constructor
      · rintro ⟨t, ht⟩
        obtain ⟨hpairs, hvalid⟩ := decodes_iff.mp ⟨t, ht⟩
        have hparity := (length_of_windows (hexDecode_eq_ok_iff.mp ht)).1
        exact ⟨hparity, hex_of_signPairs hpairs (hunsigned t ht), hvalid⟩
      · rintro ⟨hparity, hhex, hvalid⟩
        exact decodes_iff.mpr ⟨signPairs_of_hex hparity hhex, hvalid⟩
    · intro t ht
      exact hexEncode_of_windows (hexDecode_eq_ok_iff.mp ht) (hunsigned t ht)

/-- A plus and a digit are read as that digit alone. -/
theorem hexDecode_accepts_sign : ntscEncodingHexDecode ['+', 'f'] = .ok [Char.ofNat 15] ∧ ¬ HexExact ['+', 'f'] := by
  have hok : ntscEncodingHexDecode ['+', 'f'] = .ok [Char.ofNat 15] :=
    hexDecode_eq_ok_iff.mpr (Windows.cons (Window.sign (y := 15) (by decide)) Windows.nil)
  refine ⟨hok, fun hexact => ?_⟩
  obtain ⟨-, hhex, -⟩ := hexact.1.mp ⟨_, hok⟩
  exact absurd (hhex '+' List.mem_cons_self) (by unfold IsHexChar; decide)

end Neutron.Encoding
