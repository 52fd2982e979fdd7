import Mathlib.Algebra.BigOperators.Group.List.Lemmas
import Mathlib.Algebra.GroupWithZero.Nat
import Mathlib.Data.List.GetD
import Mathlib.Tactic.Common

/-!
# Source positions

`SourceBuffer` finds lines and columns by binary search in a table of line starts that ends with the
length of the text. A text is its UTF-8 bytes, in which line feeds and carriage returns are bytes of
their own.
-/

namespace Neutron.Diag

abbrev lineFeed : UInt8 := 10

abbrev carriageReturn : UInt8 := 13

/-- `match_indices('\n')` with one added to each index. -/
def afterLineFeeds (pos : ℕ) : List UInt8 → List ℕ
  | [] => []
  | b :: rest =>
    if b = lineFeed then (pos + 1) :: afterLineFeeds (pos + 1) rest else afterLineFeeds (pos + 1) rest

structure SourceBuffer where
  text : List UInt8
  lineStarts : List ℕ

def SourceBuffer.new (text : List UInt8) : SourceBuffer :=
  { text := text, lineStarts := 0 :: (afterLineFeeds 0 text ++ [text.length]) }

/-! ### Binary search -/

/-- The loop of `slice::binary_search` on the `size` entries from `base` on. It has no early exit, so that of
equal entries it finds the last. -/
def searchLoop (entries : List ℕ) (x base size : ℕ) : ℕ :=
  if 1 < size then
    let mid := base + size / 2
    searchLoop entries x (if x < entries.getD mid 0 then base else mid) (size - size / 2)
  else base
termination_by size
decreasing_by omega

/-- `slice::binary_search`: the index of an entry, or the one it would have. -/
def binarySearch (entries : List ℕ) (x : ℕ) : Except ℕ ℕ :=
  if entries = [] then .error 0
  else
    let base := searchLoop entries x 0 entries.length
    if entries.getD base 0 = x then .ok base
    else .error (if entries.getD base 0 < x then base + 1 else base)

/-- An entry that is not above `x`, with only greater ones after it. -/
def Last (entries : List ℕ) (x i : ℕ) : Prop :=
  i < entries.length ∧ entries.getD i 0 ≤ x ∧ ∀ j, i < j → j < entries.length → x < entries.getD j 0

theorem searchLoop_last {entries : List ℕ} {x base size : ℕ} (hsorted : entries.Pairwise (· ≤ ·)) (hsize : 0 < size)
    (hfits : base + size ≤ entries.length) (hbase : entries.getD base 0 ≤ x)
    (hafter : ∀ j, base + size ≤ j → j < entries.length → x < entries.getD j 0) :
    Last entries x (searchLoop entries x base size) := by
  induction size using Nat.strongRecOn generalizing base with
  | ind size ih =>
    rw [searchLoop]
    by_cases hmore : 1 < size
    · rw [if_pos hmore]
      by_cases hgreater : x < entries.getD (base + size / 2) 0
      · simp only [if_pos hgreater]
        apply ih _ (by omega) (by omega) (by omega) hbase
        intro j hj hlt
        have hmono : entries.getD (base + size / 2) 0 ≤ entries.getD j 0 := by
          rcases Nat.lt_or_ge (base + size / 2) j with hlt' | hge
          · rw [List.getD_eq_getElem _ _ (by omega), List.getD_eq_getElem _ _ hlt]
            exact List.pairwise_iff_getElem.mp hsorted _ _ (by omega) hlt hlt'
          · rw [show j = base + size / 2 by omega]
        omega
      · simp only [if_neg hgreater]
        apply ih _ (by omega) (by omega) (by omega) (by omega)
        intro j hj hlt
        exact hafter j (by omega) hlt
    · rw [if_neg hmore]
      refine ⟨by omega, hbase, fun j hj hlt => hafter j (by omega) hlt⟩

/-- The number of entries up to `x`. -/
theorem Last.countP {entries : List ℕ} {x i : ℕ} (h : Last entries x i) (hsorted : entries.Pairwise (· ≤ ·)) :
    entries.countP (· ≤ x) = i + 1 := by
  obtain ⟨hlt, hle, hafter⟩ := h
  have hfirst : (entries.take (i + 1)).countP (· ≤ x) = i + 1 := by
    have hall : ∀ n ∈ entries.take (i + 1), decide (n ≤ x) = true := by
      intro n hn
      obtain ⟨j, hj, rfl⟩ := List.mem_iff_getElem.mp hn
      rw [List.length_take] at hj
      rw [List.getD_eq_getElem _ _ hlt] at hle
      rw [List.getElem_take, decide_eq_true_eq]
      rcases Nat.lt_or_ge j i with hji | hji
      · exact (List.pairwise_iff_getElem.mp hsorted j i (by omega) hlt hji).trans hle
      · obtain rfl : j = i := by omega
        exact hle
    rw [List.countP_eq_length.mpr hall, List.length_take]
    omega
  have hrest : (entries.drop (i + 1)).countP (· ≤ x) = 0 := by
    apply List.countP_eq_zero.mpr
    intro n hn
    obtain ⟨j, hj, rfl⟩ := List.mem_iff_getElem.mp hn
    rw [List.length_drop] at hj
    have hgreater := hafter (i + 1 + j) (by omega) (by omega)
    rw [List.getD_eq_getElem _ _ (by omega)] at hgreater
    rw [List.getElem_drop, decide_eq_true_eq]
    omega
  rw [← List.take_append_drop (i + 1) entries, List.countP_append, hfirst, hrest]

/-! ### The operations -/

namespace SourceBuffer

variable (src : SourceBuffer)

def lineCount : ℕ := src.lineStarts.length - 1

def lineAtOffset (offset : ℕ) : ℕ :=
  if src.text.length < offset then 0
  else
    match binarySearch src.lineStarts offset with
    | .ok i => i + 1
    | .error i => i

def colAtOffset (offset : ℕ) : ℕ :=
  if src.lineStarts = [] then 0
  else
    let line := src.lineAtOffset offset
    if line = 0 then 0 else offset - src.lineStarts.getD (line - 1) 0 + 1

/-- `strip_suffix(b).unwrap_or(slice)` -/
def stripSuffix (b : UInt8) (slice : List UInt8) : List UInt8 :=
  if slice.getLast? = some b then slice.dropLast else slice

def lineText (line : ℕ) : List UInt8 :=
  if line = 0 ∨ src.lineStarts.length ≤ line then []
  else
    let start := src.lineStarts.getD (line - 1) 0
    let stop := src.lineStarts.getD line src.text.length
    stripSuffix lineFeed (stripSuffix carriageReturn ((src.text.take stop).drop start))

end SourceBuffer

/-! ### Lines -/

/-- The lines of a text with their terminators; there is one more than there are line feeds. -/
def lines : List UInt8 → List (List UInt8)
  | [] => [[]]
  | b :: rest => if b = lineFeed then [b] :: lines rest else (lines rest).modifyHead (b :: ·)

/-- A line feed, with a carriage return before it if there is one. -/
def terminator (line : List UInt8) : List UInt8 :=
  if [carriageReturn, lineFeed] <:+ line then [carriageReturn, lineFeed]
  else if [lineFeed] <:+ line then [lineFeed] else []

def content (line : List UInt8) : List UInt8 := line.take (line.length - (terminator line).length)

/-- How far an offset is from the start of its line. -/
def fromLineStart (text : List UInt8) (offset : ℕ) : ℕ :=
  ((text.take offset).reverse.takeWhile (· ≠ lineFeed)).length

/-- The positions at an offset and the lines of the text are right. -/
structure Located (text : List UInt8) (offset : ℕ) : Prop where
  line : (SourceBuffer.new text).lineAtOffset offset = (text.take offset).count lineFeed + 1
  inside : 1 ≤ (SourceBuffer.new text).lineAtOffset offset ∧
    (SourceBuffer.new text).lineAtOffset offset ≤ (SourceBuffer.new text).lineCount
  column : (SourceBuffer.new text).colAtOffset offset = fromLineStart text offset + 1
  content : ∀ line, 1 ≤ line → line ≤ (SourceBuffer.new text).lineCount →
    (SourceBuffer.new text).lineText line = content ((lines text).getD (line - 1) [])
  joined : ((List.range (SourceBuffer.new text).lineCount).map fun i =>
    (SourceBuffer.new text).lineText (i + 1) ++ terminator ((lines text).getD i [])).flatten = text

/-! ### The table of line starts -/

variable {text : List UInt8}

theorem afterLineFeeds_bounds {pos n : ℕ} (h : n ∈ afterLineFeeds pos text) :
    pos < n ∧ n ≤ pos + text.length := by
  induction text generalizing pos with
  | nil => exact absurd h List.not_mem_nil
  | cons b rest ih =>
    rw [afterLineFeeds] at h
    rw [List.length_cons]
    split at h
    · rcases List.mem_cons.mp h with rfl | h
      · omega
      · have hbounds := ih h
        omega
    · have hbounds := ih h
      omega

theorem pairwise_afterLineFeeds (pos : ℕ) (text : List UInt8) : (afterLineFeeds pos text).Pairwise (· ≤ ·) := by
  induction text generalizing pos with
  | nil => exact List.Pairwise.nil
  | cons b rest ih =>
    rw [afterLineFeeds]
    split
    · exact List.pairwise_cons.mpr ⟨fun n hn => (afterLineFeeds_bounds hn).1.le, ih (pos + 1)⟩
    · exact ih (pos + 1)

theorem pairwise_lineStarts (text : List UInt8) : (SourceBuffer.new text).lineStarts.Pairwise (· ≤ ·) := by
  apply List.pairwise_cons.mpr
  constructor
  · exact fun n _ => Nat.zero_le n
  · apply List.pairwise_append.mpr
    refine ⟨pairwise_afterLineFeeds 0 text, List.pairwise_singleton _ _, fun n hn m hm => ?_⟩
    rw [List.mem_singleton.mp hm]
    have hbounds := afterLineFeeds_bounds hn
    omega

theorem countP_afterLineFeeds (pos k : ℕ) (text : List UInt8) :
    (afterLineFeeds pos text).countP (· ≤ pos + k) = (text.take k).count lineFeed := by
  induction text generalizing pos k with
  | nil => rw [List.take_nil]; rfl
  | cons b rest ih =>
    cases k with
    | zero =>
      rw [List.take_zero, List.count_nil, List.countP_eq_zero]
      intro n hn
      have hbounds := afterLineFeeds_bounds hn
      simp only [Nat.add_zero, decide_eq_true_eq]
      omega
    | succ k =>
      have hrest := ih (pos + 1) k
      rw [show pos + 1 + k = pos + (k + 1) by omega] at hrest
      rw [afterLineFeeds, List.take_succ_cons]
      by_cases hb : b = lineFeed
      · rw [if_pos hb, hb, List.countP_cons_of_pos (by simp), hrest, List.count_cons_self]
      · rw [if_neg hb, hrest, List.count_cons_of_ne hb]

theorem length_afterLineFeeds (pos : ℕ) (text : List UInt8) :
    (afterLineFeeds pos text).length = text.count lineFeed := by
  induction text generalizing pos with
  | nil => rfl
  | cons b rest ih =>
    rw [afterLineFeeds]
    by_cases hb : b = lineFeed
    · rw [if_pos hb, hb, List.length_cons, ih, List.count_cons_self]
    · rw [if_neg hb, ih, List.count_cons_of_ne hb]

theorem length_lineStarts (text : List UInt8) :
    (SourceBuffer.new text).lineStarts.length = text.count lineFeed + 2 := by
  rw [SourceBuffer.new, List.length_cons, List.length_append, length_afterLineFeeds, List.length_singleton]

theorem lineCount_new (text : List UInt8) : (SourceBuffer.new text).lineCount = text.count lineFeed + 1 := by
  rw [SourceBuffer.lineCount, length_lineStarts]
  omega

/-- The search counts the entries up to the offset, the last of which is the length of the text. -/
theorem lineAtOffset_new {offset : ℕ} (h : offset ≤ text.length) : (SourceBuffer.new text).lineAtOffset offset =
      (text.take offset).count lineFeed + 1 + if text.length ≤ offset then 1 else 0 := by
  have hsorted := pairwise_lineStarts text
  have hlength := length_lineStarts text
  generalize hstarts : (SourceBuffer.new text).lineStarts = starts at hsorted hlength
  have hlast : Last starts offset (searchLoop starts offset 0 starts.length) := by
    apply searchLoop_last hsorted (by omega) (by omega)
    · rw [← hstarts]
      exact Nat.zero_le offset
    · omega
  have hcount := hlast.countP hsorted
  have hline : (SourceBuffer.new text).lineAtOffset offset = searchLoop starts offset 0 starts.length + 1 := by
    have hne : starts ≠ [] := List.ne_nil_of_length_pos (by omega)
    have hinside : ¬(SourceBuffer.new text).text.length < offset := Nat.not_lt.mpr h
    rw [SourceBuffer.lineAtOffset, hstarts, if_neg hinside, binarySearch, if_neg hne]
    by_cases heq : starts.getD (searchLoop starts offset 0 starts.length) 0 = offset
    · simp only [if_pos heq]
    · have hlt := lt_of_le_of_ne hlast.2.1 heq
      simp only [if_neg heq, if_pos hlt]
  have hentries := countP_afterLineFeeds 0 offset text
  rw [Nat.zero_add] at hentries
  rw [hline, ← hcount, ← hstarts, SourceBuffer.new, List.countP_cons_of_pos (by simp), List.countP_append, hentries,
    List.countP_singleton]
  simp only [decide_eq_true_eq]
  omega

theorem afterLineFeeds_append (pos : ℕ) (text more : List UInt8) :
    afterLineFeeds pos (text ++ more) = afterLineFeeds pos text ++ afterLineFeeds (pos + text.length) more := by
  induction text generalizing pos with
  | nil => rfl
  | cons b rest ih =>
    have hrest := ih (pos + 1)
    rw [show pos + 1 + rest.length = pos + (b :: rest).length by rw [List.length_cons]; omega] at hrest
    rw [List.cons_append, afterLineFeeds, afterLineFeeds]
    split
    · rw [hrest, List.cons_append]
    · exact hrest

/-- The last start in a prefix of the text is where its last line begins. -/
theorem lastStart (before : List UInt8) (more : List ℕ) :
    (0 :: (afterLineFeeds 0 before ++ more)).getD (before.count lineFeed) 0 +
      (before.reverse.takeWhile (· ≠ lineFeed)).length = before.length := by
  induction before using List.reverseRecOn generalizing more with
  | nil => rfl
  | append_singleton before b ih =>
    rw [afterLineFeeds_append, List.reverse_append, List.reverse_singleton, List.singleton_append,
      List.count_append, List.length_append, Nat.zero_add, List.length_singleton]
    by_cases hb : b = lineFeed
    · have hstart : afterLineFeeds before.length [b] = [before.length + 1] := by rw [afterLineFeeds, if_pos hb]; rfl
      rw [hstart, List.takeWhile_cons_of_neg (by simp [hb]), hb, List.count_singleton_self, List.getD_cons_succ,
        ← length_afterLineFeeds 0 before, List.append_assoc, List.getD_append_right _ _ _ _ (Nat.le_refl _),
        Nat.sub_self]
      rfl
    · have hnone : afterLineFeeds before.length [b] = [] := by rw [afterLineFeeds, if_neg hb]; rfl
      have hcount : [b].count lineFeed = 0 := List.count_eq_zero_of_not_mem (by simpa using Ne.symm hb)
      have hbefore := ih more
      rw [hnone, List.append_nil, List.takeWhile_cons_of_pos (by simp [hb]), List.length_cons, hcount, Nat.add_zero]
      omega

/-! ### The lines of a text -/

theorem lines_ne_nil (text : List UInt8) : ∃ line more, lines text = line :: more := by
  induction text with
  | nil => exact ⟨[], [], rfl⟩
  | cons b rest ih =>
    obtain ⟨line, more, hlines⟩ := ih
    rw [lines, hlines]
    split
    · exact ⟨_, _, rfl⟩
    · exact ⟨_, _, rfl⟩

theorem length_lines (text : List UInt8) : (lines text).length = text.count lineFeed + 1 := by
  induction text with
  | nil => rfl
  | cons b rest ih =>
    rw [lines]
    by_cases hb : b = lineFeed
    · rw [if_pos hb, List.length_cons, ih, hb, List.count_cons_self]
    · rw [if_neg hb, List.length_modifyHead, ih, List.count_cons_of_ne hb]

theorem flatten_lines (text : List UInt8) : (lines text).flatten = text := by
  induction text with
  | nil => rfl
  | cons b rest ih =>
    rw [lines]
    split
    · rw [List.flatten_cons, ih, List.singleton_append]
    · obtain ⟨line, more, hlines⟩ := lines_ne_nil rest
      rw [hlines] at ih ⊢
      rw [List.modifyHead_cons, List.flatten_cons, List.cons_append, ← List.flatten_cons, ih]

/-- The table of line starts holds the sums of the lengths of the lines. -/
theorem getD_starts (pos i : ℕ) (text : List UInt8) (hi : i ≤ (lines text).length) :
    (pos :: (afterLineFeeds pos text ++ [pos + text.length])).getD i 0 =
      pos + (((lines text).map List.length).take i).sum := by
  induction text generalizing pos i with
  | nil =>
    rcases i with _ | _ | i
    · rfl
    · rfl
    · rw [lines, List.length_singleton] at hi
      omega
  | cons b rest ih =>
    cases i with
    | zero => simp
    | succ i =>
      rw [afterLineFeeds, List.length_cons, show pos + (rest.length + 1) = pos + 1 + rest.length by omega]
      by_cases hb : b = lineFeed
      · rw [lines, if_pos hb, List.length_cons] at hi
        rw [lines, if_pos hb, if_pos hb, List.getD_cons_succ, List.cons_append, ih (pos + 1) i (by omega),
          List.map_cons, List.take_succ_cons, List.sum_cons, List.length_singleton]
        omega
      · obtain ⟨line, more, hlines⟩ := lines_ne_nil rest
        rw [lines, if_neg hb, List.length_modifyHead] at hi
        have hrest := ih (pos + 1) (i + 1) hi
        rw [List.getD_cons_succ, hlines, List.map_cons, List.take_succ_cons, List.sum_cons] at hrest
        rw [lines, if_neg hb, if_neg hb, List.getD_cons_succ, hrest, hlines, List.modifyHead_cons, List.map_cons,
          List.take_succ_cons, List.sum_cons, List.length_cons]
        omega

/-- What is stripped from a line with its terminator. -/
def stripped (line : List UInt8) : List UInt8 :=
  SourceBuffer.stripSuffix lineFeed (SourceBuffer.stripSuffix carriageReturn line)

theorem lineText_new {i : ℕ} (hi : i < (lines text).length) :
    (SourceBuffer.new text).lineText (i + 1) = stripped ((lines text).getD i []) := by
  have hcount := length_lines text
  have hstarts := length_lineStarts text
  have hstart := getD_starts 0 i text (by omega)
  have hstop := getD_starts 0 (i + 1) text (by omega)
  have hslice := List.drop_take_succ_flatten_eq_getElem (lines text) i hi
  rw [flatten_lines] at hslice
  have hlong : (SourceBuffer.new text).lineStarts.getD (i + 1) (SourceBuffer.new text).text.length =
      (SourceBuffer.new text).lineStarts.getD (i + 1) 0 := by
    rw [List.getD_eq_getElem _ _ (by omega), List.getD_eq_getElem _ _ (by omega)]
  rw [SourceBuffer.lineText, if_neg (by omega), hlong, Nat.add_sub_cancel]
  rw [Nat.zero_add, Nat.zero_add] at hstart hstop
  simp only [SourceBuffer.new, hstart, hstop, hslice]
  rw [stripped, List.getD_eq_getElem _ _ hi]

variable {line : List UInt8}

theorem suffix_singleton_iff {b : UInt8} : [b] <:+ line ↔ line.getLast? = some b := by
  rw [List.getLast?_eq_some_iff]
  constructor
  · rintro ⟨before, rfl⟩
    exact ⟨before, rfl⟩
  · rintro ⟨before, rfl⟩
    exact ⟨before, rfl⟩

/-- A line has no line feed but the one it ends with. -/
def Single (line : List UInt8) : Prop :=
  ∃ body, lineFeed ∉ body ∧ (line = body ∨ line = body ++ [lineFeed])

theorem single_of_mem {text line : List UInt8} (h : line ∈ lines text) : Single line := by
  induction text generalizing line with
  | nil => exact ⟨[], List.not_mem_nil, .inl (List.mem_singleton.mp h)⟩
  | cons b rest ih =>
    rw [lines] at h
    by_cases hb : b = lineFeed
    · rw [if_pos hb] at h
      rcases List.mem_cons.mp h with rfl | h
      · exact ⟨[], List.not_mem_nil, .inr (by rw [hb]; rfl)⟩
      · exact ih h
    · obtain ⟨first, more, hlines⟩ := lines_ne_nil rest
      rw [if_neg hb, hlines, List.modifyHead_cons] at h
      rw [hlines] at ih
      rcases List.mem_cons.mp h with rfl | h
      · obtain ⟨body, hbody, hfirst⟩ := ih List.mem_cons_self
        have hfree : lineFeed ∉ b :: body := List.not_mem_cons_of_ne_of_not_mem (Ne.symm hb) hbody
        rcases hfirst with rfl | rfl
        · exact ⟨b :: first, hfree, .inl rfl⟩
        · exact ⟨b :: body, hfree, .inr rfl⟩
      · exact ih (List.mem_cons_of_mem _ h)

theorem stripSuffix_of_not_mem {b : UInt8} (h : b ∉ line) : SourceBuffer.stripSuffix b line = line :=
  if_neg fun hlast => h (List.mem_of_getLast? hlast)

theorem terminator_suffix (line : List UInt8) : terminator line <:+ line := by
  rw [terminator]
  split_ifs with hboth hfeed
  · exact hboth
  · exact hfeed
  · exact List.nil_suffix

theorem content_append_terminator (line : List UInt8) : content line ++ terminator line = line := by
  obtain ⟨body, hbody⟩ := terminator_suffix line
  have hlength : line.length - (terminator line).length = body.length := by
    rw [← hbody, List.length_append, hbody]
    omega
  have htake : line.take body.length = body := by
    calc line.take body.length = (body ++ terminator line).take body.length := by rw [hbody]
      _ = body := List.take_left
  rw [content, hlength, htake, hbody]

/-- A line with no carriage return before its line feed, or before the end of the text. -/
def Unmarked (line : List UInt8) : Prop := ¬[carriageReturn, lineFeed] <:+ line ∧ ¬[carriageReturn] <:+ line

theorem feed_ne_return : lineFeed ≠ carriageReturn := by decide

theorem suffix_both_iff {body : List UInt8} :
    [carriageReturn, lineFeed] <:+ body ++ [lineFeed] ↔ [carriageReturn] <:+ body := by
  constructor
  · rintro ⟨before, h⟩
    exact ⟨before, (List.append_inj' (by rw [List.append_assoc]; exact h) rfl).1⟩
  · rintro ⟨before, rfl⟩
    exact ⟨before, by rw [List.append_assoc]; rfl⟩

theorem not_suffix_return {body : List UInt8} : ¬[carriageReturn] <:+ body ++ [lineFeed] := by
  rw [suffix_singleton_iff, List.getLast?_concat]
  exact fun h => feed_ne_return (Option.some.inj h)

theorem stripped_feed (body : List UInt8) : stripped (body ++ [lineFeed]) = body := by
  have hreturn : SourceBuffer.stripSuffix carriageReturn (body ++ [lineFeed]) = body ++ [lineFeed] :=
    if_neg fun h => not_suffix_return (suffix_singleton_iff.mpr h)
  rw [stripped, hreturn, SourceBuffer.stripSuffix, if_pos List.getLast?_concat, List.dropLast_concat]

theorem length_content (line : List UInt8) : (content line).length + (terminator line).length = line.length := by
  rw [← List.length_append, content_append_terminator]

/-- Stripping a carriage return before a line feed fails when the line feed is still there, and takes away the
last byte of a text that ends in a carriage return. -/
theorem stripped_eq_content_iff (h : Single line) : stripped line = content line ↔ Unmarked line := by
  obtain ⟨body, hbody, rfl | rfl⟩ := h
  · have hnoFeed : ¬[lineFeed] <:+ line := fun hs => hbody (hs.subset List.mem_cons_self)
    have hnoBoth : ¬[carriageReturn, lineFeed] <:+ line := fun hs =>
      hbody (hs.subset (List.mem_cons_of_mem _ List.mem_cons_self))
    have hcontent : content line = line := by
      rw [content, terminator, if_neg hnoBoth, if_neg hnoFeed, List.length_nil, Nat.sub_zero, List.take_length]
    have hfree : lineFeed ∉ SourceBuffer.stripSuffix carriageReturn line := by
      rw [SourceBuffer.stripSuffix]
      split
      · exact fun hmem => hbody (List.mem_of_mem_dropLast hmem)
      · exact hbody
    rw [hcontent, stripped, stripSuffix_of_not_mem hfree, SourceBuffer.stripSuffix, Unmarked,
      suffix_singleton_iff]
    constructor
    · intro heq
      refine ⟨hnoBoth, fun hlast => ?_⟩
      rw [if_pos hlast] at heq
      have hlength := congrArg List.length heq
      rw [List.length_dropLast] at hlength
      have hpos := List.length_pos_of_mem (List.mem_of_getLast? hlast)
      omega
    · rintro ⟨-, hlast⟩
      exact if_neg hlast
  · rw [stripped_feed, Unmarked, suffix_both_iff]
    have hfeed : [lineFeed] <:+ body ++ [lineFeed] := List.suffix_append body [lineFeed]
    have hlength := length_content (body ++ [lineFeed])
    rw [List.length_append, List.length_singleton] at hlength
    constructor
    · intro heq
      refine ⟨fun hlast => ?_, not_suffix_return⟩
      rw [terminator, if_pos (suffix_both_iff.mpr hlast), ← heq] at hlength
      simp at hlength
    · rintro ⟨hlast, -⟩
      have hterminator : terminator (body ++ [lineFeed]) = [lineFeed] := by
        rw [terminator, if_neg fun hs => hlast (suffix_both_iff.mp hs), if_pos hfeed]
      have hwhole := content_append_terminator (body ++ [lineFeed])
      rw [hterminator] at hwhole
      exact (List.append_cancel_right hwhole).symm

/-- A text whose lines end in a bare line feed or, the last one, with the text. -/
def Plain (text : List UInt8) : Prop :=
  ¬[carriageReturn, lineFeed] <:+: text ∧ ¬[carriageReturn] <:+ text

theorem first_line {text first : List UInt8} {more : List (List UInt8)} (h : lines text = first :: more) :
    (first = [] ↔ text = []) ∧ (first = [lineFeed] ↔ [lineFeed] <+: text) := by
  cases text with
  | nil =>
    obtain ⟨rfl, -⟩ := List.cons.inj h
    simp
  | cons b rest =>
    rw [lines] at h
    by_cases hb : b = lineFeed
    · rw [if_pos hb] at h
      obtain ⟨rfl, -⟩ := List.cons.inj h
      simp [hb]
    · obtain ⟨next, others, hnext⟩ := lines_ne_nil rest
      rw [if_neg hb, hnext] at h
      obtain ⟨rfl, -⟩ := List.cons.inj h
      simp [hb, Ne.symm hb]

theorem unmarked_feed : Unmarked [lineFeed] :=
  ⟨fun h => absurd ((@suffix_both_iff []).mp h) (by simp), @not_suffix_return []⟩

theorem unmarked_cons_iff {b : UInt8} :
    Unmarked (b :: line) ↔ Unmarked line ∧ (b = carriageReturn → line ≠ [] ∧ line ≠ [lineFeed]) := by
  simp only [Unmarked, List.suffix_cons_iff, List.cons.injEq, eq_comm (a := carriageReturn), eq_comm (b := line)]
  grind

theorem plain_cons_iff {b : UInt8} {rest : List UInt8} :
    Plain (b :: rest) ↔ Plain rest ∧ (b = carriageReturn → rest ≠ [] ∧ ¬[lineFeed] <+: rest) := by
  simp only [Plain, List.suffix_cons_iff, List.infix_cons_iff, List.cons_prefix_cons, List.cons.injEq]
  grind

theorem unmarked_lines_iff (text : List UInt8) : (∀ line ∈ lines text, Unmarked line) ↔ Plain text := by
  induction text with
  | nil => simp [lines, Unmarked, Plain]
  | cons b rest ih =>
    rw [lines, plain_cons_iff]
    by_cases hb : b = lineFeed
    · have hreturn : b ≠ carriageReturn := hb ▸ feed_ne_return
      rw [if_pos hb, List.forall_mem_cons, ih, hb]
      exact ⟨fun h => ⟨h.2, fun h' => absurd h' feed_ne_return⟩, fun h => ⟨unmarked_feed, h.1⟩⟩
    · obtain ⟨first, more, hlines⟩ := lines_ne_nil rest
      obtain ⟨hempty, hfeed⟩ := first_line hlines
      rw [hlines, List.forall_mem_cons] at ih
      have hfirst : (b = carriageReturn → rest ≠ [] ∧ ¬[lineFeed] <+: rest) ↔
          (b = carriageReturn → first ≠ [] ∧ first ≠ [lineFeed]) :=
        imp_congr_right fun _ => and_congr (not_congr hempty).symm (not_congr hfeed).symm
      rw [if_neg hb, hlines, List.modifyHead_cons, List.forall_mem_cons, unmarked_cons_iff, ← ih, hfirst]
      exact and_right_comm

/-! ### Positions -/

theorem count_take_le (text : List UInt8) (offset : ℕ) : (text.take offset).count lineFeed ≤ text.count lineFeed :=
  (List.take_sublist offset text).count_le lineFeed

theorem colAtOffset_new {offset : ℕ} (h : offset < text.length) :
    (SourceBuffer.new text).colAtOffset offset = fromLineStart text offset + 1 := by
  have hline := lineAtOffset_new h.le
  rw [if_neg (Nat.not_le.mpr h), Nat.add_zero] at hline
  have hstart := lastStart (text.take offset) (afterLineFeeds (0 + (text.take offset).length) (text.drop offset) ++
    [text.length])
  rw [← List.append_assoc, ← afterLineFeeds_append, List.take_append_drop, List.length_take,
    Nat.min_eq_left h.le] at hstart
  have hne : (SourceBuffer.new text).lineStarts ≠ [] := List.cons_ne_nil _ _
  rw [SourceBuffer.colAtOffset, if_neg hne]
  simp only [hline, if_neg (Nat.succ_ne_zero _), Nat.add_sub_cancel]
  have hcolumn : offset - (0 :: (afterLineFeeds 0 text ++ [text.length])).getD ((text.take offset).count lineFeed) 0 =
      ((text.take offset).reverse.takeWhile (· ≠ lineFeed)).length := by omega
  exact congrArg (· + 1) hcolumn

theorem content_iff (text : List UInt8) :
    (∀ line, 1 ≤ line → line ≤ (SourceBuffer.new text).lineCount →
      (SourceBuffer.new text).lineText line = content ((lines text).getD (line - 1) [])) ↔ Plain text := by
  rw [← unmarked_lines_iff, lineCount_new, ← length_lines]
  constructor
  · intro h line hmem
    obtain ⟨i, hi, rfl⟩ := List.mem_iff_getElem.mp hmem
    have htext := h (i + 1) (by omega) (by omega)
    rw [lineText_new hi, Nat.add_sub_cancel, List.getD_eq_getElem _ _ hi] at htext
    exact (stripped_eq_content_iff (single_of_mem hmem)).mp htext
  · intro h line hpos hle
    obtain ⟨i, rfl⟩ : ∃ i, line = i + 1 := ⟨line - 1, by omega⟩
    have hi : i < (lines text).length := by omega
    have hmem := List.getElem_mem hi
    rw [lineText_new hi, Nat.add_sub_cancel, List.getD_eq_getElem _ _ hi]
    exact (stripped_eq_content_iff (single_of_mem hmem)).mpr (h _ hmem)

/-- Positions and lines are right exactly at the offsets before the end of a text without carriage returns in its
terminators or at its end. -/
theorem located_iff (text : List UInt8) (offset : ℕ) : Located text offset ↔ offset < text.length ∧ Plain text := by
  constructor
  · intro h
    refine ⟨?_, (content_iff text).mp h.content⟩
    by_contra hge
    have hline := h.line
    rcases Nat.lt_or_ge text.length offset with hout | hle
    · have hpast : (SourceBuffer.new text).text.length < offset := hout
      rw [SourceBuffer.lineAtOffset, if_pos hpast] at hline
      omega
    · rw [lineAtOffset_new hle, if_pos (Nat.not_lt.mp hge)] at hline
      omega
  · rintro ⟨hlt, hplain⟩
    have hline := lineAtOffset_new hlt.le
    have hcontent := (content_iff text).mpr hplain
    rw [if_neg (Nat.not_le.mpr hlt), Nat.add_zero] at hline
    refine ⟨hline, ?_, colAtOffset_new hlt, hcontent, ?_⟩
    · rw [hline, lineCount_new]
      have hcount := count_take_le text offset
      omega
    · have hlines : ((List.range (SourceBuffer.new text).lineCount).map fun i =>
          (SourceBuffer.new text).lineText (i + 1) ++ terminator ((lines text).getD i [])) = lines text := by
        apply List.ext_getElem
        · rw [List.length_map, List.length_range, lineCount_new, length_lines]
        · intro i hi hi'
          rw [List.length_map, List.length_range] at hi
          rw [List.getElem_map, List.getElem_range, hcontent (i + 1) (by omega) hi, Nat.add_sub_cancel,
            content_append_terminator, List.getD_eq_getElem _ _ hi']
      rw [hlines, flatten_lines]

/-- The end of a text without a final newline is on a line of its own. -/
theorem not_located_end : ¬Located [97] 1 := by
  intro h
  have hinside := h.inside.2
  rw [lineAtOffset_new (Nat.le_refl 1), lineCount_new] at hinside
  exact absurd hinside (by decide)

end Neutron.Diag
