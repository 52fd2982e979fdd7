import Neutron.JsonAcceptance

/-!
# What parsing does to the value of a JSON text

The text rebuilt writes every string without escapes, and a character that is not ASCII as one character for
each of its bytes. It denotes the value of the source text if and only if every string of the source denotes
plain characters only: an unescaped backslash takes characters off the string that the source counts, a
character of several bytes adds some, and neither surplus is ever made up for later in the string.
-/

namespace Neutron.JsonParser

open Json

/-- A character whose only bytes are itself and that needs no escape. -/
def Plain (c : Char) : Prop := IsAscii c ∧ Unescaped c

instance (c : Char) : Decidable (Plain c) := inferInstanceAs (Decidable (_ ∧ _))

def decodedPiece : Piece → Option Char
  | .plain c => some c
  | .escape e => some e.char
  | .unicode _ _ _ _ => none

/-- The characters a string without `\u` escapes denotes. -/
def decoded (ps : List Piece) : List Char := ps.filterMap decodedPiece

def WithoutUnicode (ps : List Piece) : Prop := ∀ p ∈ ps, ∃ c, decodedPiece p = some c

def High (c : Char) : Prop := 128 ≤ c.toNat ∧ c.toNat < 256

theorem isAscii_escape (e : Escape) : IsAscii e.char ∧ IsAscii e.letter := by cases e <;> decide

variable {ps : List Piece}

theorem rebuilt_decoded (h : WithoutUnicode ps) : rebuilt ps = bytesAsChars (decoded ps) := by
  induction ps with
  | nil => rfl
  | cons p ps ih =>
    have hps := ih fun q hq => h q (List.mem_cons_of_mem _ hq)
    have hcons : rebuilt (p :: ps) = rebuiltPiece p ++ rebuilt ps := rfl
    obtain ⟨c, hc⟩ := h p List.mem_cons_self
    have hpiece : rebuiltPiece p = bytesAsChars [c] := by
      cases p with
      | plain d =>
        obtain rfl : d = c := Option.some.inj hc
        rfl
      | escape e =>
        obtain rfl : e.char = c := Option.some.inj hc
        rw [bytesAsChars_ascii_cons (isAscii_escape e).1]
        rfl
      | unicode => exact absurd hc (by simp [decodedPiece])
    have hdecoded : decoded (p :: ps) = [c] ++ decoded ps := List.filterMap_cons_some hc
    rw [hcons, hpiece, hps, ← bytesAsChars_append, hdecoded]

theorem units_decoded (h : WithoutUnicode ps) : units ps = (decoded ps).flatMap utf16 := by
  induction ps with
  | nil => rfl
  | cons p ps ih =>
    have hps := ih fun q hq => h q (List.mem_cons_of_mem _ hq)
    have hcons : units (p :: ps) = p.units ++ units ps := rfl
    obtain ⟨c, hc⟩ := h p List.mem_cons_self
    have hpiece : p.units = utf16 c := by
      cases p with
      | plain d =>
        obtain rfl : d = c := Option.some.inj hc
        rfl
      | escape e =>
        obtain rfl : e.char = c := Option.some.inj hc
        rfl
      | unicode => exact absurd hc (by simp [decodedPiece])
    have hdecoded : decoded (p :: ps) = c :: decoded ps := List.filterMap_cons_some hc
    rw [hcons, hpiece, hps, hdecoded, List.flatMap_cons]

/-! ## Units and characters -/

variable {c : Char}

theorem utf16_small (h : c.toNat < 256) : utf16 c = [c.toNat] := if_pos (by omega)

theorem utf16_head {n : ℕ} {us : List ℕ} (h : utf16 c = n :: us) (hn : n < 256) : c.toNat = n ∧ us = [] := by
  rw [utf16] at h
  split_ifs at h with hc
  · injection h with hhead htail
    exact ⟨hhead, htail.symm⟩
  · injection h with hhead htail
    omega

theorem utf16_ne_nil (c : Char) : utf16 c ≠ [] := by
  rw [utf16]
  split_ifs <;> simp

theorem units_ne_nil (p : Piece) : p.units ≠ [] := by
  cases p with
  | plain c => exact utf16_ne_nil c
  | escape e => exact utf16_ne_nil e.char
  | unicode => exact List.cons_ne_nil _ _

theorem flatMap_utf16_ascii {s : List Char} (h : ∀ c ∈ s, IsAscii c) : s.flatMap utf16 = s.map Char.toNat := by
  induction s with
  | nil => rfl
  | cons c s ih =>
    have hc : c.toNat < 128 := h c List.mem_cons_self
    rw [List.flatMap_cons, utf16_small (by omega), ih fun d hd => h d (List.mem_cons_of_mem _ hd), List.map_cons]
    rfl

theorem units_high {ds : List Char} (h : ∀ d ∈ ds, High d) : units (ds.map Piece.plain) = ds.map Char.toNat := by
  induction ds with
  | nil => rfl
  | cons d ds ih =>
    have hhead : (Piece.plain d).units = [d.toNat] := utf16_small (h d List.mem_cons_self).2
    have hcons : units ((d :: ds).map Piece.plain) = (Piece.plain d).units ++ units (ds.map Piece.plain) := rfl
    rw [hcons, hhead, ih fun c hc => h c (List.mem_cons_of_mem _ hc), List.map_cons]
    rfl

theorem other_bytes (h : ¬ IsAscii c) (s : List Char) :
    ∃ d d' ds, bytesAsChars (c :: s) = d :: d' :: ds ++ bytesAsChars s ∧ ∀ x ∈ d :: d' :: ds, High x := by
  obtain ⟨d, d', ds, hbytes, hother⟩ := bytesAsChars_other_cons h s
  refine ⟨d, d', ds, hbytes, fun x hx => ?_⟩
  have hmem : x ∈ bytesAsChars (c :: s) := by
    rw [hbytes]
    exact List.mem_append_left (bytesAsChars s) hx
  obtain ⟨b, -, rfl⟩ := List.mem_map.mp hmem
  have hge : ¬ (byteChar b).toNat < 128 := hother _ hx
  have hlt := b.toNat_lt
  rw [High]
  rw [toNat_byteChar] at hge ⊢
  omega

/-! ## A string and the text of another -/

/-- Characters at the front of a rebuilt string that are ASCII and no quote come from the string. -/
theorem ascii_prefix {cs more w tail : List Char} (hcs : ∀ c ∈ cs, IsAscii c ∧ c ≠ '"')
    (h : cs ++ more = bytesAsChars w ++ '"' :: tail) :
    ∃ w', w = cs ++ w' ∧ more = bytesAsChars w' ++ '"' :: tail := by
  induction cs generalizing w with
  | nil => exact ⟨w, rfl, h⟩
  | cons c cs ih =>
    obtain ⟨hascii, hquote⟩ := hcs c List.mem_cons_self
    rcases w with _ | ⟨d, w⟩
    · exact absurd (List.cons.inj h).1 hquote
    · by_cases hd : IsAscii d
      · rw [bytesAsChars_ascii_cons hd, List.cons_append] at h
        obtain ⟨rfl, hnext⟩ := List.cons.inj h
        obtain ⟨w', rfl, hmore⟩ := ih (fun x hx => hcs x (List.mem_cons_of_mem _ hx)) hnext
        exact ⟨w', rfl, hmore⟩
      · obtain ⟨x, x', xs, hbytes, hhigh⟩ := other_bytes hd w
        rw [hbytes] at h
        obtain ⟨rfl, -⟩ := List.cons.inj h
        have hlt : c.toNat < 128 := hascii
        have hge := (hhigh c List.mem_cons_self).1
        omega

/-- High characters at the front of a string's text are plain pieces. -/
theorem high_prefix {ds more rest : List Char} (hds : ∀ d ∈ ds, High d)
    (h : text ps ++ '"' :: rest = ds ++ more) :
    ∃ ps', ps = ds.map Piece.plain ++ ps' ∧ text ps' ++ '"' :: rest = more := by
  have hne : ∀ {d : Char}, High d → d ≠ '"' ∧ d ≠ '\\' := by
    rintro d hd
    constructor
    · rintro rfl
      exact absurd hd.1 (by decide)
    · rintro rfl
      exact absurd hd.1 (by decide)
  induction ds generalizing ps with
  | nil => exact ⟨ps, rfl, h⟩
  | cons d ds ih =>
    obtain ⟨hquote, hbackslash⟩ := hne (hds d List.mem_cons_self)
    rcases ps with _ | ⟨p, ps⟩
    · exact absurd (List.cons.inj h).1.symm hquote
    · cases p with
      | plain c =>
        obtain ⟨rfl, hnext⟩ := List.cons.inj h
        obtain ⟨ps', rfl, hmore⟩ := ih (fun x hx => hds x (List.mem_cons_of_mem _ hx)) hnext
        exact ⟨ps', rfl, hmore⟩
      | escape e => exact absurd (List.cons.inj h).1.symm hbackslash
      | unicode => exact absurd (List.cons.inj h).1.symm hbackslash

/-- A piece that denotes an ASCII character other than the quote is written with such characters. -/
theorem small_piece {p : Piece} {n : ℕ} {us : List ℕ} (hok : p.Ok) (h : p.units = n :: us) (hn : n < 128 ∧ n ≠ 34) :
    us = [] ∧ p.text ≠ [] ∧ ∀ c ∈ p.text, IsAscii c ∧ c ≠ '"' := by
  cases p with
  | plain c =>
    obtain ⟨hc, hus⟩ := utf16_head h (by omega)
    refine ⟨hus, List.cons_ne_nil _ _, fun d hd => ?_⟩
    rw [List.mem_singleton.mp hd]
    exact ⟨by rw [IsAscii]; omega, hok.2.1⟩
  | escape e =>
    obtain ⟨hc, hus⟩ := utf16_head h (by omega)
    have hletter : e.letter ≠ '"' := by
      intro hletter
      have hquote : e = .quote := by
        cases e
        all_goals first | rfl | exact absurd hletter (by decide)
      subst hquote
      exact hn.2 hc.symm
    refine ⟨hus, List.cons_ne_nil _ _, fun d hd => ?_⟩
    rcases List.mem_cons.mp hd with rfl | hd
    · decide
    · rw [List.mem_singleton.mp hd]
      exact ⟨(isAscii_escape e).2, hletter⟩
  | unicode h1 h2 h3 h4 =>
    have hhex : ∀ {c : Char}, IsHex c → IsAscii c ∧ c ≠ '"' := fun hc =>
      ⟨isAscii_of_isHex hc, by rintro rfl; exact absurd hc (by simp [IsHex])⟩
    obtain ⟨hh1, hh2, hh3, hh4⟩ := hok
    refine ⟨(List.cons.inj h).2.symm, List.cons_ne_nil _ _, ?_⟩
    simp only [Piece.text, List.forall_mem_cons]
    exact ⟨by decide, by decide, hhex hh1, hhex hh2, hhex hh3, hhex hh4, fun c hc => absurd hc List.not_mem_nil⟩

theorem small_unit (h : IsAscii c ∧ c ≠ '"') : c.toNat < 128 ∧ c.toNat ≠ 34 := by
  refine ⟨h.1, fun h34 => h.2 ?_⟩
  rw [← Char.ofNat_toNat c, h34]

variable {rest tail : List Char}

/-- A text with a surplus of small units over the string it is the rebuilt text of does not exist. -/
theorem no_surplus {w : List Char} {y : List ℕ} (hok : ∀ p ∈ ps, p.Ok)
    (htext : text ps ++ '"' :: rest = bytesAsChars w ++ '"' :: tail) (hunits : units ps = y ++ w.flatMap utf16)
    (hy : ∀ n ∈ y, n < 128 ∧ n ≠ 34) : y = [] := by
  induction ps generalizing w y with
  | nil => exact (List.append_eq_nil_iff.mp hunits.symm).1
  | cons p ps ih =>
    rcases y with _ | ⟨n, y⟩
    · rfl
    · obtain ⟨m, us, hm⟩ := List.exists_cons_of_ne_nil (units_ne_nil p)
      have hcons : units (p :: ps) = p.units ++ units ps := rfl
      rw [hcons, hm] at hunits
      obtain ⟨rfl, hnext⟩ := List.cons.inj hunits
      obtain ⟨rfl, hne, hsmall⟩ := small_piece (hok p List.mem_cons_self) hm (hy m List.mem_cons_self)
      have hsplit : text (p :: ps) = p.text ++ text ps := rfl
      rw [hsplit, List.append_assoc] at htext
      obtain ⟨w', rfl, hafter⟩ := ascii_prefix hsmall htext
      have hmore : units ps = (y ++ p.text.map Char.toNat) ++ w'.flatMap utf16 := by
        rw [List.append_assoc, ← flatMap_utf16_ascii fun c hc => (hsmall c hc).1, ← List.flatMap_append]
        exact hnext
      have hempty := ih (fun q hq => hok q (List.mem_cons_of_mem _ hq)) hafter hmore ?_
      · rw [List.append_eq_nil_iff, List.map_eq_nil_iff] at hempty
        exact absurd hempty.2 hne
      · intro k hk
        rcases List.mem_append.mp hk with hk | hk
        · exact hy k (List.mem_cons_of_mem _ hk)
        · obtain ⟨c, hc, rfl⟩ := List.mem_map.mp hk
          exact small_unit (hsmall c hc)

/-- Nor is there one that falls behind by high characters. -/
theorem no_deficit {w y : List Char} (htext : text ps ++ '"' :: rest = bytesAsChars w ++ '"' :: tail)
    (hunits : w.flatMap utf16 = y.map Char.toNat ++ units ps) (hy : ∀ d ∈ y, High d) : y = [] := by
  induction w generalizing ps y with
  | nil => exact List.map_eq_nil_iff.mp (List.append_eq_nil_iff.mp hunits.symm).1
  | cons c w ih =>
    rcases y with _ | ⟨d, y⟩
    · rfl
    · obtain ⟨m, us, hm⟩ := List.exists_cons_of_ne_nil (utf16_ne_nil c)
      have hd := hy d List.mem_cons_self
      rw [List.flatMap_cons, hm] at hunits
      obtain ⟨rfl, hnext⟩ := List.cons.inj hunits
      obtain ⟨hc, rfl⟩ := utf16_head hm hd.2
      have hother : ¬ IsAscii c := by
        rw [IsAscii, hc]
        have hge := hd.1
        omega
      obtain ⟨x, x', xs, hbytes, hhigh⟩ := other_bytes hother w
      rw [hbytes, List.append_assoc] at htext
      obtain ⟨ps', rfl, hafter⟩ := high_prefix hhigh htext
      have happend : units ((x :: x' :: xs).map Piece.plain ++ ps') =
          units ((x :: x' :: xs).map Piece.plain) ++ units ps' := List.flatMap_append
      have hmore : w.flatMap utf16 = (y ++ x :: x' :: xs).map Char.toNat ++ units ps' := by
        rw [List.map_append, List.append_assoc, ← units_high hhigh, ← happend]
        exact hnext
      have hempty := ih hafter hmore fun e he => (List.mem_append.mp he).elim
        (fun he => hy e (List.mem_cons_of_mem _ he)) (fun he => hhigh e he)
      exact absurd (List.append_eq_nil_iff.mp hempty).2 (List.cons_ne_nil _ _)

/-- A string whose text is the rebuilt text of what it denotes denotes plain characters only. -/
theorem plain_of_text {w : List Char} (hok : ∀ p ∈ ps, p.Ok)
    (htext : text ps ++ '"' :: rest = bytesAsChars w ++ '"' :: tail) (hunits : units ps = w.flatMap utf16) :
    (∀ c ∈ w, Plain c) ∧ rest = tail := by
  induction w generalizing ps with
  | nil =>
    rcases ps with _ | ⟨p, ps⟩
    · exact ⟨fun c hc => absurd hc List.not_mem_nil, (List.cons.inj htext).2⟩
    · exact absurd (List.append_eq_nil_iff.mp hunits).1 (units_ne_nil p)
  | cons c w ih =>
    by_cases hascii : IsAscii c
    · have hlt : c.toNat < 128 := hascii
      rw [List.flatMap_cons, utf16_small (by omega)] at hunits
      rcases ps with _ | ⟨p, ps⟩
      · exact absurd hunits (by simp [units])
      · rw [bytesAsChars_ascii_cons hascii] at htext
        by_cases hp : p = .plain c
        · subst hp
          obtain ⟨-, htext⟩ := List.cons.inj htext
          have hcons : units (.plain c :: ps) = utf16 c ++ units ps := rfl
          rw [hcons, utf16_small (by omega)] at hunits
          have hok' : Unescaped c := hok _ List.mem_cons_self
          obtain ⟨hplain, hrest⟩ := ih (fun q hq => hok q (List.mem_cons_of_mem _ hq)) htext (List.cons.inj hunits).2
          exact ⟨List.forall_mem_cons.mpr ⟨⟨hascii, hok'⟩, hplain⟩, hrest⟩
        · exfalso
          -- An escape is in the way: what is written after its backslash is a surplus.
          obtain ⟨m, us, hm⟩ := List.exists_cons_of_ne_nil (units_ne_nil p)
          have hcons : units (p :: ps) = p.units ++ units ps := rfl
          rw [hcons, hm] at hunits
          obtain ⟨rfl, hnext⟩ := List.cons.inj hunits
          obtain ⟨cs, hpiece, hne⟩ : ∃ cs, p.text = '\\' :: cs ∧ cs ≠ [] := by
            cases p with
            | plain d => exact absurd (congrArg Piece.plain (List.cons.inj htext).1) hp
            | escape e => exact ⟨_, rfl, List.cons_ne_nil _ _⟩
            | unicode => exact ⟨_, rfl, List.cons_ne_nil _ _⟩
          have hsplit : text (p :: ps) = p.text ++ text ps := rfl
          rw [hsplit, hpiece, List.append_assoc, List.cons_append] at htext
          obtain ⟨hc, htext⟩ := List.cons.inj htext
          obtain ⟨rfl, -, hsmall⟩ := small_piece (hok p List.mem_cons_self) hm ⟨hlt, by rw [← hc]; decide⟩
          rw [hpiece] at hsmall
          have hcs := fun d hd => hsmall d (List.mem_cons_of_mem _ hd)
          obtain ⟨w', rfl, hafter⟩ := ascii_prefix hcs htext
          have hmore : units ps = cs.map Char.toNat ++ w'.flatMap utf16 := by
            rw [← flatMap_utf16_ascii fun d hd => (hcs d hd).1, ← List.flatMap_append]
            exact hnext
          have hempty := no_surplus (fun q hq => hok q (List.mem_cons_of_mem _ hq)) hafter hmore ?_
          · exact hne (List.map_eq_nil_iff.mp hempty)
          · intro k hk
            obtain ⟨d, hd, rfl⟩ := List.mem_map.mp hk
            exact small_unit (hcs d hd)
    · exfalso
      -- The bytes of the character are plain pieces, of which it stands for one at most.
      obtain ⟨x, x', xs, hbytes, hhigh⟩ := other_bytes hascii w
      rw [hbytes, List.append_assoc] at htext
      obtain ⟨ps', rfl, hafter⟩ := high_prefix hhigh htext
      have happend : units ((x :: x' :: xs).map Piece.plain ++ ps') =
          units ((x :: x' :: xs).map Piece.plain) ++ units ps' := List.flatMap_append
      obtain ⟨m, us, hm⟩ := List.exists_cons_of_ne_nil (utf16_ne_nil c)
      rw [happend, units_high hhigh, List.flatMap_cons, hm] at hunits
      obtain ⟨rfl, hnext⟩ := List.cons.inj hunits
      obtain ⟨-, rfl⟩ := utf16_head hm (hhigh x List.mem_cons_self).2
      have hmore : w.flatMap utf16 = (x' :: xs).map Char.toNat ++ units ps' := hnext.symm
      have hempty := no_deficit hafter hmore fun e he => hhigh e (List.mem_cons_of_mem _ he)
      exact absurd hempty (List.cons_ne_nil _ _)

/-! ## Values -/

/-- Every string and key denotes plain characters only. -/
def AllPlain (t : Node (List Piece)) : Prop := t.All (fun ps => ∀ c ∈ decoded ps, Plain c) fun _ => True

/-- No string or key has a `\u` escape. -/
def NoUnicode (t : Node (List Piece)) : Prop := t.All WithoutUnicode fun _ => True

/-- What the values read have: strings without `\u` escapes, and well formed numbers. -/
def Decodable (t : Node (List Piece)) : Prop := t.All WithoutUnicode IsNumber

variable {t : Node (List Piece)}

/-- What is read off a rebuilt text before anything, when it has the value of the source. -/
theorem opens_rebuild (h : Decodable t) : ∃ c cs, rebuild t = c :: cs ∧ Opens c := by
  cases t with
  | null => exact ⟨_, _, rfl, by simp [Opens]⟩
  | bool b =>
    cases b with
    | true => exact ⟨_, _, rfl, by simp [Opens]⟩
    | false => exact ⟨_, _, rfl, by simp [Opens]⟩
  | num digits => exact opens_of_isNumber h
  | str => exact ⟨_, _, rfl, by simp [Opens]⟩
  | arr => exact ⟨_, _, rfl, by simp [Opens]⟩
  | obj => exact ⟨_, _, rfl, by simp [Opens]⟩

theorem not_isWs_of_opens (h : Opens c) : ¬ IsWs c := by
  intro hws
  have hspace : isAsciiWhitespace (ascii c) = true := by
    rcases hws with rfl | rfl | rfl | rfl <;> decide
  exact absurd (hspace.symm.trans h.spec.2.1) (by decide)

theorem blank_before {ws s s' : List Char} (hws : Blank ws) (hc : ¬ IsWs c) (h : ws ++ s = c :: s') :
    ws = [] ∧ s = c :: s' := by
  rcases ws with _ | ⟨d, ws⟩
  · exact ⟨rfl, h⟩
  · obtain ⟨rfl, -⟩ := List.cons.inj h
    exact absurd (hws d List.mem_cons_self) hc

theorem blank_before_value {ws s more : List Char} (ht : Decodable t) (hws : Blank ws)
    (h : ws ++ s = rebuild t ++ more) : s = rebuild t ++ more := by
  obtain ⟨c, cs, hopen, hc⟩ := opens_rebuild ht
  rw [hopen, List.cons_append] at h ⊢
  exact (blank_before hws (not_isWs_of_opens hc) h).2

theorem rebuild_string {ps ps' : List Piece} (h : WithoutUnicode ps) (hok : ∀ p ∈ ps', p.Ok)
    (htext : quoted (text ps') ++ rest = quoted (rebuilt ps) ++ tail) (hunits : units ps' = units ps) :
    (∀ c ∈ decoded ps, Plain c) ∧ rest = tail := by
  rw [rebuilt_decoded h] at htext
  rw [units_decoded h] at hunits
  refine plain_of_text hok ?_ hunits
  have hinner : text ps' ++ ['"'] ++ rest = bytesAsChars (decoded ps) ++ ['"'] ++ tail := (List.cons.inj htext).2
  rwa [List.append_assoc, List.append_assoc] at hinner

theorem not_derives_nil {s rest : List Char} :
    ¬ Derives (.elements .nil) s rest ∧ ¬ Derives (.members .nil) s rest := by
  constructor
  · intro h
    cases h
  · intro h
    cases h

mutual

/-- A rebuilt text denotes the value of its source only if the source denotes plain characters. -/
theorem plain_of_value : ∀ (t : Node (List Piece)) {t' : Node (List Piece)} {s tail rest : List Char}, Decodable t →
    Derives (.value t') s rest → s = rebuild t ++ tail → t'.value = t.value → AllPlain t ∧ rest = tail
  | .null, t', s, tail, rest, _, h, hs, hvalue => by
    cases t' with
    | null =>
      cases h with
      | null => exact ⟨trivial, List.append_cancel_left hs⟩
    | _ => cases hvalue
  | .bool b, t', s, tail, rest, _, h, hs, hvalue => by
    cases t' with
    | bool b' =>
      obtain rfl : b' = b := Node.bool.inj hvalue
      cases h with
      | true => exact ⟨trivial, List.append_cancel_left hs⟩
      | false => exact ⟨trivial, List.append_cancel_left hs⟩
    | _ => cases hvalue
  | .num digits, t', s, tail, rest, _, h, hs, hvalue => by
    cases t' with
    | num digits' =>
      obtain rfl : digits' = digits := Node.num.inj hvalue
      cases h with
      | num => exact ⟨trivial, List.append_cancel_left hs⟩
    | _ => cases hvalue
  | .str ps, t', s, tail, rest, hunicode, h, hs, hvalue => by
    cases t' with
    | str ps' =>
      have hunits : units ps' = units ps := Node.str.inj hvalue
      cases h with
      | str _ hok => exact rebuild_string hunicode hok hs hunits
    | _ => cases hvalue
  | .arr ts, t', s, tail, rest, hunicode, h, hs, hvalue => by
    cases t' with
    | arr ts' =>
      have hmap : ts'.map units = ts.map units := Node.arr.inj hvalue
      have hinner : rebuild (.arr ts) ++ tail =
          '[' :: (List.intercalate [','] (ts.renders fun ps => quoted (rebuilt ps)) ++ ']' :: tail) := by
        rw [rebuild, Node.render, List.cons_append, List.append_assoc]
        rfl
      rw [hinner] at hs
      cases h with
      | emptyArr _ hws =>
        cases ts with
        | nil =>
          obtain ⟨-, hrest⟩ := blank_before hws (by simp [IsWs]) (List.cons.inj hs).2
          exact ⟨trivial, (List.cons.inj hrest).2⟩
        | cons t ts => cases hmap
      | arr h => exact plain_of_elements ts hunicode h (List.cons.inj hs).2 hmap
    | _ => cases hvalue
  | .obj ms, t', s, tail, rest, hunicode, h, hs, hvalue => by
    cases t' with
    | obj ms' =>
      have hmap : ms'.map units = ms.map units := Node.obj.inj hvalue
      have hinner : rebuild (.obj ms) ++ tail =
          '{' :: (List.intercalate [','] (ms.renders fun ps => quoted (rebuilt ps)) ++ '}' :: tail) := by
        rw [rebuild, Node.render, List.cons_append, List.append_assoc]
        rfl
      rw [hinner] at hs
      cases h with
      | emptyObj _ hws =>
        cases ms with
        | nil =>
          obtain ⟨-, hrest⟩ := blank_before hws (by simp [IsWs]) (List.cons.inj hs).2
          exact ⟨trivial, (List.cons.inj hrest).2⟩
        | cons k t ms => cases hmap
      | obj h => exact plain_of_members ms hunicode h (List.cons.inj hs).2 hmap
    | _ => cases hvalue

theorem plain_of_elements : ∀ (ts : Nodes (List Piece)) {ts' : Nodes (List Piece)} {s tail rest : List Char},
    ts.All WithoutUnicode IsNumber → Derives (.elements ts') s rest →
    s = List.intercalate [','] (ts.renders fun ps => quoted (rebuilt ps)) ++ ']' :: tail →
    ts'.map units = ts.map units → ts.All (fun ps => ∀ c ∈ decoded ps, Plain c) (fun _ => True) ∧ rest = tail
  | .nil, ts', s, tail, rest, _, h, _, hmap => by
    cases ts' with
    | nil => exact absurd h not_derives_nil.1
    | cons t' ts' => cases hmap
  | .cons t .nil, ts', s, tail, rest, ⟨hunicode, _⟩, h, hs, hmap => by
    change s = List.intercalate [','] [rebuild t] ++ ']' :: tail at hs
    rw [List.intercalate_singleton] at hs
    cases h with
    | lastElement _ hws ht hws' =>
      obtain ⟨hvalue, -⟩ := Nodes.cons.inj hmap
      obtain ⟨hplain, hrest⟩ := plain_of_value t hunicode ht (blank_before_value hunicode hws hs) hvalue
      obtain ⟨-, hrest⟩ := blank_before hws' (by simp [IsWs]) hrest
      exact ⟨⟨hplain, trivial⟩, (List.cons.inj hrest).2⟩
    | element _ _ _ hts =>
      cases hts with
      | lastElement => cases (Nodes.cons.inj hmap).2
      | element => cases (Nodes.cons.inj hmap).2
  | .cons t (.cons t2 ts), ts', s, tail, rest, ⟨hunicode, hunicodes⟩, h, hs, hmap => by
    rw [Nodes.renders, Nodes.renders, List.intercalate_cons_cons, List.append_assoc, List.append_assoc] at hs
    change s = rebuild t ++ _ at hs
    cases h with
    | lastElement => cases (Nodes.cons.inj hmap).2
    | element hws ht hws' hts =>
      obtain ⟨hvalue, hvalues⟩ := Nodes.cons.inj hmap
      obtain ⟨hplain, hrest⟩ := plain_of_value t hunicode ht (blank_before_value hunicode hws hs) hvalue
      obtain ⟨-, hrest⟩ := blank_before hws' (by simp [IsWs]) hrest
      obtain ⟨hplains, hrest⟩ := plain_of_elements (.cons t2 ts) hunicodes hts (List.cons.inj hrest).2 hvalues
      exact ⟨⟨hplain, hplains⟩, hrest⟩

theorem plain_of_members : ∀ (ms : Members (List Piece)) {ms' : Members (List Piece)} {s tail rest : List Char},
    ms.All WithoutUnicode IsNumber → Derives (.members ms') s rest →
    s = List.intercalate [','] (ms.renders fun ps => quoted (rebuilt ps)) ++ '}' :: tail →
    ms'.map units = ms.map units → ms.All (fun ps => ∀ c ∈ decoded ps, Plain c) (fun _ => True) ∧ rest = tail
  | .nil, ms', s, tail, rest, _, h, _, hmap => by
    cases ms' with
    | nil => exact absurd h not_derives_nil.2
    | cons k' t' ms' => cases hmap
  | .cons k t .nil, ms', s, tail, rest, ⟨hkey, hunicode, _⟩, h, hs, hmap => by
    change s = List.intercalate [','] [quoted (rebuilt k) ++ ':' :: rebuild t] ++ '}' :: tail at hs
    rw [List.intercalate_singleton, List.append_assoc] at hs
    cases h with
    | lastMember _ hws hk hws1 hws2 ht hws' =>
      obtain ⟨hunits, hvalue, -⟩ := Members.cons.inj hmap
      obtain ⟨-, hs⟩ := blank_before hws (by simp [IsWs]) hs
      obtain ⟨hplainKey, hs⟩ := rebuild_string hkey hk hs hunits
      obtain ⟨-, hs⟩ := blank_before hws1 (by simp [IsWs]) hs
      have hs := (List.cons.inj hs).2
      obtain ⟨hplain, hrest⟩ := plain_of_value t hunicode ht (blank_before_value hunicode hws2 hs) hvalue
      obtain ⟨-, hrest⟩ := blank_before hws' (by simp [IsWs]) hrest
      exact ⟨⟨hplainKey, hplain, trivial⟩, (List.cons.inj hrest).2⟩
    | member _ _ _ _ _ _ hms =>
      cases hms with
      | lastMember => cases (Members.cons.inj hmap).2.2
      | member => cases (Members.cons.inj hmap).2.2
  | .cons k t (.cons k2 t2 ms), ms', s, tail, rest, ⟨hkey, hunicode, hunicodes⟩, h, hs, hmap => by
    rw [Members.renders, Members.renders, List.intercalate_cons_cons, List.append_assoc, List.append_assoc,
      List.append_assoc] at hs
    change s = quoted (rebuilt k) ++ (':' :: rebuild t ++ _) at hs
    cases h with
    | lastMember => cases (Members.cons.inj hmap).2.2
    | member hws hk hws1 hws2 ht hws' hms =>
      obtain ⟨hunits, hvalue, hvalues⟩ := Members.cons.inj hmap
      obtain ⟨-, hs⟩ := blank_before hws (by simp [IsWs]) hs
      obtain ⟨hplainKey, hs⟩ := rebuild_string hkey hk hs hunits
      obtain ⟨-, hs⟩ := blank_before hws1 (by simp [IsWs]) hs
      have hs := (List.cons.inj hs).2
      obtain ⟨hplain, hrest⟩ := plain_of_value t hunicode ht (blank_before_value hunicode hws2 hs) hvalue
      obtain ⟨-, hrest⟩ := blank_before hws' (by simp [IsWs]) hrest
      obtain ⟨hplains, hrest⟩ := plain_of_members (.cons k2 t2 ms) hunicodes hms (List.cons.inj hrest).2 hvalues
      exact ⟨⟨hplainKey, hplain, hplains⟩, hrest⟩

end

theorem plain_of_denotes (h : Decodable t) (hdenotes : Denotes (rebuild t) t.value) : AllPlain t := by
  obtain ⟨t', ⟨ws, s', ws', hs, hws, ht', -⟩, hvalue⟩ := hdenotes
  rw [← List.append_nil (rebuild t)] at hs
  exact (plain_of_value t h ht' (blank_before_value h hws hs.symm) hvalue).1

/-- A value with every string written plainly. -/
def written (t : Node (List Piece)) : Node (List Piece) := t.map fun ps => (decoded ps).map Piece.plain

theorem text_plain (cs : List Char) : text (cs.map Piece.plain) = cs := by
  induction cs with
  | nil => rfl
  | cons c cs ih => exact congrArg (c :: ·) ih

theorem decoded_plain (cs : List Char) : decoded (cs.map Piece.plain) = cs := by
  induction cs with
  | nil => rfl
  | cons c cs ih => exact congrArg (c :: ·) ih

theorem withoutUnicode_plain (cs : List Char) : WithoutUnicode (cs.map Piece.plain) := by
  intro p hp
  obtain ⟨c, -, rfl⟩ := List.mem_map.mp hp
  exact ⟨c, rfl⟩

/-- A value of plain strings is rebuilt as the text that writes it plainly. -/
theorem rebuild_plain (h : Decodable t) (hplain : AllPlain t) :
    Text (rebuild t) (written t) ∧ (written t).value = t.value ∧ rebuild (written t) = rebuild t := by
  have hall : t.All (fun ps => WithoutUnicode ps ∧ ∀ c ∈ decoded ps, Plain c) IsNumber :=
    Node.all_of_both (fun _ hps hus => ⟨hus, hps⟩) t hplain h
  have hcompact : compact (written t) = rebuild t := by
    refine Node.render_map (fun ps hps => ?_) t hall
    rw [text_plain, rebuilt_decoded hps.1, bytesAsChars_eq_self_iff.mpr fun c hc => (hps.2 c hc).1]
  have hwellFormed : WellFormed (written t) := by
    refine Node.all_map (fun ps hps p hp => ?_) t hall
    obtain ⟨c, hc, rfl⟩ := List.mem_map.mp hp
    exact (hps.2 c hc).2
  refine ⟨?_, Node.map_map (fun ps hps => ?_) t hall, Node.render_map (fun ps hps => ?_) t hall⟩
  · rw [← hcompact]
    exact text_compact hwellFormed
  · rw [units_decoded (withoutUnicode_plain _), units_decoded hps.1, decoded_plain]
  · rw [rebuilt_decoded (withoutUnicode_plain _), rebuilt_decoded hps.1, decoded_plain]

theorem denotes_rebuild_iff (h : Decodable t) : Denotes (rebuild t) t.value ↔ AllPlain t := by
  refine ⟨plain_of_denotes h, fun hplain => ?_⟩
  obtain ⟨htext, hvalue, -⟩ := rebuild_plain h hplain
  exact ⟨written t, htext, hvalue⟩

theorem decodable_of_text {s : List Char} (h : Text s t) (hunicode : NoUnicode t) : Decodable t := by
  obtain ⟨ws, s', ws', -, -, ht, -⟩ := h
  exact Node.all_of_both (fun _ hps _ => hps) t hunicode (wellFormed_of_derives ht)

/-! ## Escaped strings -/

def escapedChar (ch : Char) : List Char :=
  if ch = '"' then ['\\', '"']
  else if ch = '\\' then ['\\', '\\']
  else if ch = '\n' then ['\\', 'n']
  else if ch = '\r' then ['\\', 'r']
  else if ch = '\t' then ['\\', 't']
  else if ch = '\x08' then ['\\', 'b']
  else if ch = '\x0c' then ['\\', 'f']
  else [ch]

def ntscJsonEscapeString (input : List Char) : List Char := '"' :: (input.flatMap escapedChar ++ ['"'])

def escapedPiece (ch : Char) : Piece :=
  if ch = '"' then .escape .quote
  else if ch = '\\' then .escape .backslash
  else if ch = '\n' then .escape .n
  else if ch = '\r' then .escape .r
  else if ch = '\t' then .escape .t
  else if ch = '\x08' then .escape .b
  else if ch = '\x0c' then .escape .f
  else .plain ch

theorem escapedPiece_spec (ch : Char) :
    (escapedPiece ch).text = escapedChar ch ∧ decodedPiece (escapedPiece ch) = some ch ∧ Readable (escapedPiece ch) := by
  rw [escapedPiece, escapedChar]
  by_cases hquote : ch = '"'
  · subst hquote
    exact ⟨rfl, rfl, trivial⟩
  · by_cases hbackslash : ch = '\\'
    · subst hbackslash
      exact ⟨rfl, rfl, trivial⟩
    · rw [if_neg hquote, if_neg hbackslash, if_neg hquote, if_neg hbackslash]
      split_ifs with hn hr ht hb hf
      · exact ⟨rfl, congrArg some hn.symm, trivial⟩
      · exact ⟨rfl, congrArg some hr.symm, trivial⟩
      · exact ⟨rfl, congrArg some ht.symm, trivial⟩
      · exact ⟨rfl, congrArg some hb.symm, trivial⟩
      · exact ⟨rfl, congrArg some hf.symm, trivial⟩
      · exact ⟨rfl, rfl, hquote, hbackslash⟩

theorem decoded_escaped (s : List Char) : decoded (s.map escapedPiece) = s := by
  induction s with
  | nil => rfl
  | cons c s ih =>
    rw [decoded, List.map_cons, List.filterMap_cons_some (escapedPiece_spec c).2.1]
    exact congrArg (c :: ·) ih

theorem withoutUnicode_escaped (s : List Char) : WithoutUnicode (s.map escapedPiece) := by
  intro p hp
  obtain ⟨c, -, rfl⟩ := List.mem_map.mp hp
  exact ⟨c, (escapedPiece_spec c).2.1⟩

theorem ntscJsonEscapeString_eq (s : List Char) : ntscJsonEscapeString s = quoted (text (s.map escapedPiece)) := by
  have htext : text (s.map escapedPiece) = s.flatMap escapedChar := by
    rw [text, List.flatMap_map]
    exact congrArg (s.flatMap ·) (funext fun c => (escapedPiece_spec c).1)
  rw [htext]
  rfl

theorem ntscJsonParse_escaped (s : List Char) :
    ntscJsonParse (ntscJsonEscapeString s) = .ok (rebuild (.str (s.map escapedPiece))) := by
  have hreadable : ∀ p ∈ s.map escapedPiece, Readable p := by
    intro p hp
    obtain ⟨c, -, rfl⟩ := List.mem_map.mp hp
    exact (escapedPiece_spec c).2.2
  have hreads := reads_string hreadable []
  rw [List.append_nil, ← ntscJsonEscapeString_eq] at hreads
  rw [ntscJsonParse, parse_eq_ok_iff.mpr hreads]
  rfl

/-- Parsing keeps the value of a text, and of an escaped string, if and only if there are plain characters only. -/
theorem ntscJsonParse_meaning_iff {s : List Char} {t : Node (List Piece)} (h : Text s t) (hunicode : NoUnicode t)
    (r : List Char) :
    ((∃ out, ntscJsonParse s = .ok out ∧ Denotes out t.value ∧ ntscJsonParse out = .ok out) ↔ AllPlain t) ∧
    ((∃ out, ntscJsonParse (ntscJsonEscapeString r) = .ok out ∧ Denotes out (.str (r.flatMap utf16))) ↔
      ∀ c ∈ r, Plain c) := by
  have hdecodable := decodable_of_text h hunicode
  constructor
  · constructor
    · rintro ⟨out, hout, hdenotes, -⟩
      obtain rfl : rebuild t = out := Except.ok.inj ((ntscJsonParse_text h).symm.trans hout)
      exact plain_of_denotes hdecodable hdenotes
    · intro hplain
      obtain ⟨htext, hvalue, hagain⟩ := rebuild_plain hdecodable hplain
      refine ⟨rebuild t, ntscJsonParse_text h, ⟨written t, htext, hvalue⟩, ?_⟩
      rw [ntscJsonParse_text htext, hagain]
  · have hstr : Decodable (.str (r.map escapedPiece)) := withoutUnicode_escaped r
    have hvalue : (Node.str (r.map escapedPiece)).value = .str (r.flatMap utf16) := by
      rw [Node.value, Node.map, units_decoded (withoutUnicode_escaped r), decoded_escaped]
    have hplain : AllPlain (.str (r.map escapedPiece)) ↔ ∀ c ∈ r, Plain c := by
      rw [AllPlain, Node.All, decoded_escaped]
    rw [← hplain, ← denotes_rebuild_iff hstr, ← hvalue]
    constructor
    · rintro ⟨out, hout, hdenotes⟩
      obtain rfl := Except.ok.inj ((ntscJsonParse_escaped r).symm.trans hout)
      exact hdenotes
    · exact fun hdenotes => ⟨_, ntscJsonParse_escaped r, hdenotes⟩

/-- The tree of `{"name":"ab","list":[true,"x,y",{"k":null,"":"z"}]}`. -/
def nestedList : Node (List Piece) :=
  let plain (s : String) : List Piece := s.toList.map Piece.plain
  .obj (.cons (plain "name") (.str (plain "ab")) (.cons (plain "list") (.arr (.cons (.bool true)
    (.cons (.str (plain "x,y")) (.cons (.obj (.cons (plain "k") .null (.cons [] (.str (plain "z")) .nil)))
      .nil)))) .nil))

theorem all_nestedList {P : List Piece → Prop} {N : List Char → Prop}
    (h : ∀ s ∈ ["name", "ab", "list", "x,y", "k", "", "z"], P (s.toList.map Piece.plain)) : nestedList.All P N := by
  simp only [List.forall_mem_cons] at h
  obtain ⟨hname, hab, hlist, hxy, hk, hempty, hz, -⟩ := h
  exact ⟨hname, hab, hlist, ⟨trivial, hxy, ⟨hk, trivial, hempty, hz, trivial⟩, trivial⟩, trivial⟩

theorem wellFormed_nestedList : WellFormed nestedList :=
  all_nestedList fun s hs => plain_ok (forall_of_all (by revert s; decide))

theorem ntscJsonParse_meaning_nestedList :
    (∃ out, ntscJsonParse (compact nestedList) = .ok out ∧ Denotes out nestedList.value ∧
      ntscJsonParse out = .ok out) ∧
    ∃ out, ntscJsonParse (ntscJsonEscapeString "a/b".toList) = .ok out ∧
      Denotes out (.str ("a/b".toList.flatMap utf16)) := by
  have hunicode : NoUnicode nestedList := all_nestedList fun s _ => withoutUnicode_plain s.toList
  have hplain : AllPlain nestedList := all_nestedList fun s hs => by
    rw [decoded_plain]
    exact forall_of_all (by revert s; decide)
  have h := ntscJsonParse_meaning_iff (text_compact wellFormed_nestedList) hunicode "a/b".toList
  exact ⟨h.1.mpr hplain, h.2.mpr (forall_of_all (by decide))⟩

/-- A newline written with its escape is rebuilt as itself, which no string of JSON may hold. -/
theorem ntscJsonParse_meaning_lost : ¬ ∀ (s : List Char) (t : Node (List Piece)), Text s t → NoUnicode t →
    ∃ out, ntscJsonParse s = .ok out ∧ Denotes out t.value ∧ ntscJsonParse out = .ok out := by
  intro hall
  have hok : ∀ p ∈ [Piece.escape .n], p.Ok := fun p hp => by
    rw [List.mem_singleton.mp hp]
    trivial
  have hunicode : WithoutUnicode [Piece.escape .n] := fun p hp => ⟨'\n', by rw [List.mem_singleton.mp hp]; rfl⟩
  have htext : Text ['"', '\\', 'n', '"'] (.str [.escape .n]) := text_compact (t := .str [.escape .n]) hok
  obtain ⟨out, hout, hdenotes, -⟩ := hall _ _ htext hunicode
  obtain rfl := Except.ok.inj ((ntscJsonParse_text htext).symm.trans hout)
  have hplain : AllPlain (.str [.escape .n]) := plain_of_denotes hunicode hdenotes
  exact absurd (hplain '\n' (by simp [decoded, decodedPiece, Escape.char])).2.1 (by decide)

end Neutron.JsonParser
