import Mathlib.Algebra.Group.Int.Defs
import Mathlib.Algebra.Group.Nat.Defs
import Mathlib.Data.List.DropRight
import Mathlib.Data.List.Induction
import Mathlib.Tactic.Common

/-!
# Text functions of the runtime's document modules

Trimming and lines as the standard library has them, and the escape pass every document parser makes
first. What counts for the parsers is the lines that are not blank: trimming the whole text does not
change them, and the escape pass goes line by line.
-/

namespace Neutron.RuntimeText

/-- `char::is_whitespace` -/
def isWhitespace (c : Char) : Bool :=
  let n := c.toNat
  (9 ≤ n && n ≤ 13) || n == 0x20 || n == 0x85 || n == 0xA0 || n == 0x1680 || (0x2000 ≤ n && n ≤ 0x200A) ||
    n == 0x2028 || n == 0x2029 || n == 0x202F || n == 0x205F || n == 0x3000

def trimStart (s : List Char) : List Char := s.dropWhile isWhitespace

def trimEnd (s : List Char) : List Char := s.rdropWhile isWhitespace

def trim (s : List Char) : List Char := trimEnd (trimStart s)

/-- `str::lines`: the line feed goes, with a carriage return before it; a last empty line is none. -/
def strLines (s : List Char) : List (List Char) :=
  let pieces := s.splitOn '\n'
  let stripped := pieces.dropLast.map fun p => if p.getLast? = some '\r' then p.dropLast else p
  stripped ++ (pieces.getLast?.filter (· ≠ [])).toList

/-- `modules::unescape` -/
def unescape : List Char → List Char
  | [] => []
  | ['\\'] => ['\\']
  | '\\' :: 'n' :: rest => '\n' :: unescape rest
  | '\\' :: 'r' :: rest => '\r' :: unescape rest
  | '\\' :: 't' :: rest => '\t' :: unescape rest
  | '\\' :: '"' :: rest => '"' :: unescape rest
  | '\\' :: '\\' :: rest => '\\' :: unescape rest
  | '\\' :: other :: rest => '\\' :: other :: unescape rest
  | c :: rest => c :: unescape rest

/-- `str::replace` of a character. -/
def replaceChar (c : Char) (new : List Char) (s : List Char) : List Char := s.flatMap fun d => if d = c then new else [d]

def decimal (s : List Char) : Option ℕ :=
  if s ≠ [] ∧ s.all Char.isDigit then some (s.foldl (fun n c => 10 * n + (c.toNat - '0'.toNat)) 0) else none

/-- `str::parse::<i64>` -/
def parseI64 (s : List Char) : Option Int :=
  let value : Option Int := match s with
    | '-' :: digits => (decimal digits).map fun n => -(n : Int)
    | '+' :: digits => (decimal digits).map fun n => (n : Int)
    | digits => (decimal digits).map fun n => (n : Int)
  value.filter fun n => -(2 : Int) ^ 63 ≤ n ∧ n < (2 : Int) ^ 63

/-- The lines that are not blank, trimmed. -/
def nonblankLines (s : List Char) : List (List Char) := ((s.splitOn '\n').map trim).filter (· ≠ [])

variable {s t : List Char} {c : Char}

theorem trim_cons_whitespace (h : isWhitespace c = true) (s : List Char) : trim (c :: s) = trim s := by
  rw [trim, trim, trimStart, List.dropWhile_cons_of_pos h]
  rfl

theorem trim_concat_whitespace (h : isWhitespace c = true) (s : List Char) : trim (s ++ [c]) = trim s := by
  induction s with
  | nil => rw [List.nil_append, trim_cons_whitespace h]
  | cons d s ih =>
    by_cases hd : isWhitespace d = true
    · rw [List.cons_append, trim_cons_whitespace hd, trim_cons_whitespace hd, ih]
    · rw [trim, trim, trimStart, trimStart, List.cons_append, List.dropWhile_cons_of_neg hd,
        List.dropWhile_cons_of_neg hd, trimEnd, ← List.cons_append, List.rdropWhile_concat_pos _ _ _ h]
      rfl

theorem nonblankLines_newline (s t : List Char) :
    nonblankLines (s ++ '\n' :: t) = nonblankLines s ++ nonblankLines t := by
  rw [nonblankLines, List.splitOn_append_cons_self, List.map_append, List.filter_append]
  rfl

theorem nonblankLines_of_not_mem (h : '\n' ∉ s) : nonblankLines s = if trim s = [] then [] else [trim s] := by
  rw [nonblankLines, List.splitOn_eq_singleton h, List.map_cons, List.map_nil, List.filter_cons]
  by_cases ht : trim s = []
  · rw [if_pos ht, ht]
    rfl
  · rw [if_neg ht, if_pos (by simpa using ht)]
    rfl

/-- A text without a line feed, or one and what follows it. -/
theorem newline_cases (s : List Char) : '\n' ∉ s ∨ ∃ front rest, s = front ++ '\n' :: rest ∧ '\n' ∉ front := by
  induction s with
  | nil => exact .inl List.not_mem_nil
  | cons d s ih =>
    by_cases hd : d = '\n'
    · exact .inr ⟨[], s, by rw [hd]; rfl, List.not_mem_nil⟩
    · have hcons : ∀ l, '\n' ∉ l → '\n' ∉ d :: l := fun l h hmem =>
        (List.mem_cons.mp hmem).elim (fun heq => hd heq.symm) h
      rcases ih with h | ⟨front, rest, rfl, hfront⟩
      · exact .inl (hcons s h)
      · exact .inr ⟨d :: front, rest, rfl, hcons front hfront⟩

theorem nonblankLines_cons_whitespace (h : isWhitespace c = true) (s : List Char) :
    nonblankLines (c :: s) = nonblankLines s := by
  by_cases hc : c = '\n'
  · rw [hc]
    exact nonblankLines_newline [] s
  · have hline : ∀ front, '\n' ∉ front → nonblankLines (c :: front) = nonblankLines front := by
      intro front hfront
      have hnot : '\n' ∉ c :: front := fun hmem => (List.mem_cons.mp hmem).elim (fun heq => hc heq.symm) hfront
      rw [nonblankLines_of_not_mem hnot, nonblankLines_of_not_mem hfront, trim_cons_whitespace h]
    rcases newline_cases s with hs | ⟨front, rest, rfl, hfront⟩
    · exact hline s hs
    · rw [← List.cons_append, nonblankLines_newline, nonblankLines_newline, hline front hfront]

theorem nonblankLines_concat_whitespace (h : isWhitespace c = true) (s : List Char) :
    nonblankLines (s ++ [c]) = nonblankLines s := by
  induction hn : s.length using Nat.strongRecOn generalizing s with
  | _ n ih =>
    rcases newline_cases s with hs | ⟨front, rest, rfl, hfront⟩
    · by_cases hc : c = '\n'
      · rw [hc, nonblankLines_newline]
        exact List.append_nil _
      · have hnot : '\n' ∉ s ++ [c] := by
          rw [List.mem_append, List.mem_singleton]
          rintro (hmem | heq)
          · exact hs hmem
          · exact hc heq.symm
        rw [nonblankLines_of_not_mem hnot, nonblankLines_of_not_mem hs, trim_concat_whitespace h]
    · rw [List.append_assoc, List.cons_append, nonblankLines_newline, nonblankLines_newline]
      have hless : rest.length < n := by
        rw [← hn, List.length_append, List.length_cons]
        omega
      rw [ih _ hless rest rfl]

/-- Trimming the whole text loses no line that is not blank. -/
theorem nonblankLines_trim (s : List Char) : nonblankLines (trim s) = nonblankLines s := by
  have hstart : nonblankLines (trimStart s) = nonblankLines s := by
    induction s with
    | nil => rfl
    | cons c s ih =>
      rw [trimStart]
      by_cases hc : isWhitespace c = true
      · rw [List.dropWhile_cons_of_pos hc, nonblankLines_cons_whitespace hc]
        exact ih
      · rw [List.dropWhile_cons_of_neg hc]
  rw [trim, ← hstart]
  generalize trimStart s = u
  induction u using List.reverseRecOn with
  | nil => rfl
  | append_singleton u c ih =>
    rw [trimEnd]
    by_cases hc : isWhitespace c = true
    · rw [List.rdropWhile_concat_pos _ _ _ hc, nonblankLines_concat_whitespace hc]
      exact ih
    · rw [List.rdropWhile_concat_neg _ _ _ hc]

theorem not_newline_of_mem_splitOn {p : List Char} (h : p ∈ s.splitOn '\n') : '\n' ∉ p := by
  induction hn : s.length using Nat.strongRecOn generalizing s with
  | _ n ih =>
    rcases newline_cases s with hs | ⟨front, rest, rfl, hfront⟩
    · rw [List.splitOn_eq_singleton hs, List.mem_singleton] at h
      exact h ▸ hs
    · rw [List.splitOn_append_cons_self, List.splitOn_eq_singleton hfront, List.mem_append, List.mem_singleton] at h
      rcases h with rfl | h
      · exact hfront
      · exact ih _ (by rw [← hn, List.length_append, List.length_cons]; omega) h rfl

theorem trim_isInfix (s : List Char) : trim s <:+: s :=
  (List.rdropWhile_prefix isWhitespace _).isInfix.trans (List.dropWhile_suffix isWhitespace).isInfix

theorem of_mem_nonblankLines {p : List Char} (h : p ∈ nonblankLines s) : p ≠ [] ∧ '\n' ∉ p := by
  rw [nonblankLines, List.mem_filter] at h
  obtain ⟨hmem, hne⟩ := h
  obtain ⟨q, hq, rfl⟩ := List.mem_map.mp hmem
  exact ⟨by simpa using hne, fun hnl => not_newline_of_mem_splitOn hq ((trim_isInfix q).subset hnl)⟩

theorem trim_trim (s : List Char) : trim (trim s) = trim s := by
  have hkept : trimStart (trimEnd (trimStart s)) = trimEnd (trimStart s) := by
    induction s with
    | nil => rfl
    | cons c s ih =>
      by_cases hc : isWhitespace c = true
      · rw [show trimStart (c :: s) = trimStart s from List.dropWhile_cons_of_pos hc]
        exact ih
      · rw [show trimStart (c :: s) = c :: s from List.dropWhile_cons_of_neg hc]
        obtain ⟨rest, hrest⟩ := List.rdropWhile_prefix isWhitespace (c :: s)
        cases hend : trimEnd (c :: s) with
        | nil =>
          have hall := List.rdropWhile_eq_nil_iff.mp hend
          exact absurd (hall c List.mem_cons_self) hc
        | cons d u =>
          rw [show List.rdropWhile isWhitespace (c :: s) = d :: u from hend, List.cons_append] at hrest
          rw [(List.cons.inj hrest).1]
          exact List.dropWhile_cons_of_neg hc
  rw [trim, trim, hkept]
  exact List.rdropWhile_idempotent isWhitespace (trimStart s)

/-- A text is one line if and only if, once trimmed, something without a line feed is left. -/
theorem nonblankLines_eq_singleton_iff : nonblankLines s = [trim s] ↔ trim s ≠ [] ∧ '\n' ∉ trim s := by
  constructor
  · intro h
    exact of_mem_nonblankLines (s := s) (h ▸ List.mem_cons_self)
  · rintro ⟨hne, hnot⟩
    rw [← nonblankLines_trim, nonblankLines_of_not_mem hnot, trim_trim, if_neg hne]

theorem trim_stripped (p : List Char) : trim (if p.getLast? = some '\r' then p.dropLast else p) = trim p := by
  by_cases h : p.getLast? = some '\r'
  · obtain ⟨q, rfl⟩ := List.getLast?_eq_some_iff.mp h
    rw [if_pos h, List.dropLast_concat, trim_concat_whitespace (by decide)]
  · rw [if_neg h]

/-- What `str::lines` does to line ends makes no difference to the lines that are not blank. -/
theorem nonblank_strLines (s : List Char) : ((strLines s).map trim).filter (· ≠ []) = nonblankLines s := by
  obtain ⟨front, last, hpieces⟩ := (List.eq_nil_or_concat' (s.splitOn '\n')).resolve_left (List.splitOn_ne_nil _ _)
  have hfront : (front.map fun p => if p.getLast? = some '\r' then p.dropLast else p).map trim = front.map trim := by
    rw [List.map_map]
    exact List.map_congr_left fun p _ => trim_stripped p
  rw [strLines, nonblankLines, hpieces]
  rw [List.dropLast_concat, List.getLast?_concat, List.map_append, hfront, List.map_append, List.filter_append,
    List.filter_append]
  congr 1
  by_cases hlast : last = []
  · rw [hlast]
    rfl
  · rw [Option.filter_some_pos (by simpa using hlast)]
    rfl

theorem unescape_cons (h : c ≠ '\\') (s : List Char) : unescape (c :: s) = c :: unescape s :=
  unescape.eq_9 c s (fun hc _ => h hc) (fun _ hc _ => h hc) (fun _ hc _ => h hc) (fun _ hc _ => h hc)
    (fun _ hc _ => h hc) (fun _ hc _ => h hc) (fun _ _ hc _ => h hc)

theorem unescape_newline (s t : List Char) : unescape (s ++ '\n' :: t) = unescape s ++ '\n' :: unescape t := by
  fun_induction unescape s with
  | case1 => rfl
  | case2 => rfl
  | case3 rest ih => exact congrArg ('\n' :: ·) ih
  | case4 rest ih => exact congrArg ('\r' :: ·) ih
  | case5 rest ih => exact congrArg ('\t' :: ·) ih
  | case6 rest ih => exact congrArg ('"' :: ·) ih
  | case7 rest ih => exact congrArg ('\\' :: ·) ih
  | case8 other rest h1 h2 h3 h4 h5 ih =>
    rw [List.cons_append, List.cons_append, unescape.eq_8 _ _ h1 h2 h3 h4 h5, ih]
    rfl
  | case9 c rest h1 h2 h3 h4 h5 h6 h7 ih =>
    have hc : c ≠ '\\' := fun hc => by
      rcases rest with _ | ⟨other, rest⟩
      · exact h1 hc rfl
      · exact h7 other rest hc rfl
    rw [List.cons_append, unescape_cons hc, ih]
    rfl

end Neutron.RuntimeText
