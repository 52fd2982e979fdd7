import Neutron.Lexer

/-!
# Where tokens are

The position the lexer keeps is that of the text read so far. A token of a text is located by its
span unless it comes from an interpolated expression, whose lexer starts again at the beginning of
the expression.
-/

namespace Neutron.Source

/-! ### Positions and texts -/

/-- The number of characters since the last newline. -/
def sinceNewline (t : Text) : ℕ := (t.reverse.takeWhile (· ≠ '\n')).length

@[simp] theorem bytes_nil : bytes [] = 0 := rfl

@[simp] theorem bytes_append (s t : Text) : bytes (s ++ t) = bytes s + bytes t := by
  simp [bytes]

theorem bytes_eq_zero {t : Text} : bytes t = 0 ↔ t = [] := by
  cases t with
  | nil => simp
  | cons c t =>
    have := c.utf8Size_pos
    simp only [bytes, List.map_cons, List.sum_cons, reduceCtorEq, iff_false]
    omega

/-- The position after a text. -/
def posAfter (t : Text) : Pos := ⟨bytes t, 1 + t.count '\n', 1 + sinceNewline t⟩

theorem posAfter_concat (t : Text) (c : Char) : posAfter (t ++ [c]) = (posAfter t).advance c := by
  by_cases h : c = '\n'
  · subst h
    simp [posAfter, Pos.advance, sinceNewline, bytes, Nat.add_assoc]
  · simp [posAfter, Pos.advance, sinceNewline, bytes, h, Nat.add_comm]

theorem advanceThrough_posAfter (s t : Text) : (posAfter s).advanceThrough t = posAfter (s ++ t) := by
  induction t generalizing s with
  | nil => simp [Pos.advanceThrough]
  | cons c t ih =>
    have h := ih (s ++ [c])
    rw [posAfter_concat] at h
    simpa [Pos.advanceThrough] using h

/-- The span of a part of a text. -/
def spanOf (before inside : Text) : Span :=
  ⟨bytes before, bytes (before ++ inside), 1 + before.count '\n', 1 + sinceNewline before⟩

/-- A token is where its span says: the range is inside the text, line and column are those of its
start, and it contains the lexeme. -/
structure Located (src : Text) (t : Token) : Prop where
  ordered : t.span.start ≤ t.span.stop
  inside : t.span.stop ≤ bytes src
  place : ∃ before inside after, src = before ++ inside ++ after ∧
    t.span.start = bytes before ∧ t.span.stop = bytes before + bytes inside ∧
    t.span.line = 1 + before.count '\n' ∧ t.span.column = 1 + sinceNewline before ∧
    t.lexeme.toList <:+: inside

theorem located_of_place {src before inside after : Text} {t : Token}
    (hsrc : src = before ++ inside ++ after) (hspan : t.span = spanOf before inside)
    (hlexeme : t.lexeme.toList <:+: inside) : Located src t := by
  have hstop : t.span.stop = bytes before + bytes inside := by simp [hspan, spanOf]
  have hstart : t.span.start = bytes before := by simp [hspan, spanOf]
  refine ⟨by omega, ?_, before, inside, after, hsrc, hstart, hstop, ?_, ?_, hlexeme⟩
  · rw [hsrc, hstop]
    simp
  · simp [hspan, spanOf]
  · simp [hspan, spanOf]

/-! ### The parts of an interpolated string -/

/-- The characters read so far. -/
def SplitState.read : SplitState → Text
  | .text read => read
  | .hole _ read => read

def InterpPart.source : InterpPart → Text
  | .text t => t
  | .expression t => t

theorem infix_of_tail {s t u : Text} (h : s <:+: t) (before : Text) (hu : u = before ++ t) : s <:+: u :=
  h.trans ⟨before, [], by simp [hu]⟩

/-- Every part of an interpolated string is a piece of it. -/
theorem source_infix_of_mem (state : SplitState) (t : Text) :
    ∀ part ∈ splitFrom state t, part.source <:+: state.read.reverse ++ t := by
  fun_induction splitFrom state t with
  | case1 => simp
  | case2 c read => simp [InterpPart.source, SplitState.read]
  | case3 rest ih =>
    intro part hpart
    exact infix_of_tail (ih part hpart) ['$', '{'] (by simp [SplitState.read])
  | case4 c read rest ih =>
    intro part hpart
    rcases List.mem_cons.mp hpart with rfl | hpart
    · exact (List.prefix_append _ _).isInfix
    · exact infix_of_tail (ih part hpart) ((c :: read).reverse ++ ['$', '{']) (by simp [SplitState.read])
  | case5 read c rest _ _ ih =>
    intro part hpart
    exact infix_of_tail (ih part hpart) [] (by simp [SplitState.read])
  | case6 depth read => simp [InterpPart.source, SplitState.read]
  | case7 depth read rest ih =>
    intro part hpart
    exact infix_of_tail (ih part hpart) [] (by simp [SplitState.read])
  | case8 read rest ih =>
    intro part hpart
    rcases List.mem_cons.mp hpart with rfl | hpart
    · exact (List.prefix_append _ _).isInfix
    · exact infix_of_tail (ih part hpart) (read.reverse ++ ['}']) (by simp [SplitState.read])
  | case9 depth read rest _ ih =>
    intro part hpart
    exact infix_of_tail (ih part hpart) [] (by simp [SplitState.read])
  | case10 depth read c rest _ _ ih =>
    intro part hpart
    exact infix_of_tail (ih part hpart) [] (by simp [SplitState.read])

theorem source_infix (content : Text) :
    ∀ part ∈ splitInterpolatedString content, part.source <:+: content := by
  simpa [SplitState.read, splitInterpolatedString] using source_infix_of_mem (.text []) content

theorem unquote_within (slice : Text) : unquote slice <:+: slice :=
  (List.dropLast_prefix _).isInfix.trans (List.drop_suffix 1 slice).isInfix

theorem unquoteRaw_infix (slice : Text) : unquoteRaw slice <:+: slice :=
  (List.dropLast_prefix _).isInfix.trans (List.drop_suffix 2 slice).isInfix

/-! ### Texts without tokens in their interpolations -/

/-- The expressions of the interpolations of a raw item. -/
def holes (i : RawItem) : List Text :=
  match i.token with
  | some .stringLiteral | some .singleQuoteStringLiteral =>
    (splitInterpolatedString (unquote i.slice)).filterMap fun
      | .text _ => none
      | .expression source => some source
  | _ => []

/-- No interpolation of a text has a token. -/
def HolesEmpty (logos : Logos) (src : Text) : Prop :=
  ∀ i ∈ (logos src).items, ∀ hole ∈ holes i, (logos hole).items = []

/-- A token with a given span and a lexeme from a slice. -/
def FromSlice (span : Span) (slice : Text) (t : Token) : Prop :=
  t.span = span ∧ t.lexeme.toList <:+: slice

section
variable {logos : Logos} {fuel : ℕ} {span : Span}

theorem tokenize_of_no_items {src : Text} (h : (logos src).items = []) :
    ∃ eof, tokenize logos (fuel + 1) src = some [eof] ∧ eof.kind = .eof := by
  refine ⟨⟨.eof, 0, 0, 1, 1⟩, ?_, rfl⟩
  simp [tokenize, h, lexItems, Pos.start]

/-- The parts of a string whose interpolations have no tokens give its segments. -/
theorem partsTokens_segments (parts : List InterpPart)
    (hholes : ∀ source, .expression source ∈ parts → (logos source).items = []) :
    ∃ tokens, partsTokens (tokenize logos (fuel + 1)) span parts = some tokens ∧
      ∀ t ∈ tokens, ∃ text, .text text ∈ parts ∧ t = ⟨.stringSegment (String.ofList text), span⟩ := by
  induction parts with
  | nil => exact ⟨[], rfl, by simp⟩
  | cons part rest ih =>
    obtain ⟨tokens, htokens, hsegments⟩ := ih fun source h => hholes source (List.mem_cons_of_mem _ h)
    cases part with
    | text text =>
      refine ⟨⟨.stringSegment (String.ofList text), span⟩ :: tokens, by simp [partsTokens, htokens],
        fun t ht => ?_⟩
      rcases List.mem_cons.mp ht with rfl | ht
      · exact ⟨text, List.mem_cons_self, rfl⟩
      · obtain ⟨text', hmem, heq⟩ := hsegments t ht
        exact ⟨text', List.mem_cons_of_mem _ hmem, heq⟩
    | expression source =>
      obtain ⟨eof, hnested, heof⟩ := @tokenize_of_no_items logos fuel source
        (hholes source List.mem_cons_self)
      refine ⟨tokens, by simp [partsTokens, hnested, htokens, heof], fun t ht => ?_⟩
      obtain ⟨text', hmem, heq⟩ := hsegments t ht
      exact ⟨text', List.mem_cons_of_mem _ hmem, heq⟩

theorem emitStringTokens_fromSlice {content : Text}
    (hholes : ∀ source, .expression source ∈ splitInterpolatedString content →
      (logos source).items = []) :
    ∃ tokens, emitStringTokens (tokenize logos (fuel + 1)) span content = some tokens ∧
      ∀ t ∈ tokens, FromSlice span content t := by
  unfold emitStringTokens
  split
  case isTrue =>
    obtain ⟨tokens, htokens, hsegments⟩ :=
      @partsTokens_segments logos fuel span (splitInterpolatedString content) hholes
    have hfrom : ∀ t ∈ tokens, FromSlice span content t := by
      intro t ht
      obtain ⟨text, hmem, rfl⟩ := hsegments t ht
      exact ⟨rfl, by simpa [Token.lexeme, InterpPart.source] using source_infix content _ hmem⟩
    rw [htokens]
    cases tokens with
    | nil => exact ⟨[⟨.stringLiteral "", span⟩], rfl, by simp [FromSlice, Token.lexeme]⟩
    | cons t rest =>
      obtain ⟨text, -, rfl⟩ := hsegments t List.mem_cons_self
      exact ⟨_, rfl, hfrom⟩
  case isFalse =>
    exact ⟨_, rfl, by simp [FromSlice, Token.lexeme]⟩

theorem mem_holes {i : RawItem} {source : Text}
    (htoken : i.token = some .stringLiteral ∨ i.token = some .singleQuoteStringLiteral)
    (h : .expression source ∈ splitInterpolatedString (unquote i.slice)) : source ∈ holes i := by
  unfold holes
  rcases htoken with htoken | htoken
  · rw [htoken]
    exact List.mem_filterMap.mpr ⟨_, h, rfl⟩
  · rw [htoken]
    exact List.mem_filterMap.mpr ⟨_, h, rfl⟩

theorem lexeme_of_isFixed {kind : TokenKind} (h : kind.isFixed) : Token.lexeme ⟨kind, span⟩ = "" := by
  unfold Token.lexeme
  split <;> simp_all [TokenKind.isFixed]

theorem convertItem_fromSlice {i : RawItem} (hslice : i.slice ≠ [])
    (hholes : ∀ hole ∈ holes i, (logos hole).items = []) :
    ∃ tokens, convertItem (tokenize logos (fuel + 1)) span i = some tokens ∧
      ∀ t ∈ tokens, FromSlice span i.slice t := by
  have hstring (htoken : i.token = some .stringLiteral ∨ i.token = some .singleQuoteStringLiteral) :
      ∃ tokens, emitStringTokens (tokenize logos (fuel + 1)) span (unquote i.slice) = some tokens ∧
        ∀ t ∈ tokens, FromSlice span i.slice t := by
    obtain ⟨tokens, htokens, hfrom⟩ := @emitStringTokens_fromSlice logos fuel span (unquote i.slice)
      fun source hsource => hholes source (mem_holes htoken hsource)
    exact ⟨tokens, htokens, fun t ht => ⟨(hfrom t ht).1, (hfrom t ht).2.trans (unquote_within i.slice)⟩⟩
  unfold convertItem
  cases htoken : i.token with
  | none =>
    refine ⟨_, rfl, ?_⟩
    obtain ⟨c, rest, hslice⟩ := List.exists_cons_of_ne_nil hslice
    simpa [FromSlice, Token.lexeme, hslice] using (List.prefix_append [c] rest).isInfix
  | some token =>
    cases token with
    | fixed kind hfixed =>
      exact ⟨_, rfl, by simp [FromSlice, lexeme_of_isFixed hfixed]⟩
    | numberLiteral => exact ⟨_, rfl, by simp [FromSlice, Token.lexeme]⟩
    | identifier => exact ⟨_, rfl, by simp [FromSlice, Token.lexeme]⟩
    | stringLiteral => exact hstring (.inl htoken)
    | singleQuoteStringLiteral => exact hstring (.inr htoken)
    | rawStringLiteral =>
      exact ⟨_, rfl, by simpa [FromSlice, Token.lexeme] using unquoteRaw_infix i.slice⟩
    | rawSingleQuoteStringLiteral =>
      exact ⟨_, rfl, by simpa [FromSlice, Token.lexeme] using unquoteRaw_infix i.slice⟩

/-! ### Whole texts -/

/-- The text of a list of raw items. -/
def itemsText (items : List RawItem) : Text := items.flatMap fun i => i.gap ++ i.slice

/-- The loop from a position in a text: its tokens are located, in order and not before the
position, and it ends after the items. -/
theorem lexItems_located {src : Text} (items : List RawItem) (before after : Text)
    (hsrc : src = before ++ itemsText items ++ after) (hslices : ∀ i ∈ items, i.slice ≠ [])
    (hholes : ∀ i ∈ items, ∀ hole ∈ holes i, (logos hole).items = []) :
    ∃ tokens, lexItems (tokenize logos (fuel + 1)) (posAfter before) items =
        some (tokens, posAfter (before ++ itemsText items)) ∧
      (∀ t ∈ tokens, Located src t ∧ bytes before ≤ t.span.start ∧
        t.span.start ≤ bytes (before ++ itemsText items)) ∧
      tokens.Pairwise fun t u => t.span.start ≤ u.span.start := by
  induction items generalizing before with
  | nil => exact ⟨[], by simp [lexItems, itemsText], by simp, .nil⟩
  | cons i rest ih =>
    have htext : itemsText (i :: rest) = i.gap ++ i.slice ++ itemsText rest := rfl
    obtain ⟨tokens, htokens, hfrom⟩ := @convertItem_fromSlice logos fuel
      (spanOf (before ++ i.gap) i.slice) i (hslices i List.mem_cons_self) (hholes i List.mem_cons_self)
    obtain ⟨others, hothers, hlocated, hsorted⟩ := ih (before ++ i.gap ++ i.slice)
      (by simp [hsrc, htext]) (fun j hj => hslices j (List.mem_cons_of_mem _ hj))
      (fun j hj => hholes j (List.mem_cons_of_mem _ hj))
    have hstart : ∀ t ∈ tokens, t.span.start = bytes (before ++ i.gap) := by
      intro t ht
      rw [(hfrom t ht).1]
      rfl
    have hsplit : src = (before ++ i.gap) ++ i.slice ++ (itemsText rest ++ after) := by
      simp [hsrc, htext]
    refine ⟨tokens ++ others, ?_, fun t ht => ?_, ?_⟩
    · have hspan : (⟨(posAfter (before ++ i.gap)).offset, (posAfter (before ++ i.gap ++ i.slice)).offset,
          (posAfter (before ++ i.gap)).line, (posAfter (before ++ i.gap)).column⟩ : Span) =
          spanOf (before ++ i.gap) i.slice := rfl
      simp only [lexItems, advanceThrough_posAfter, hspan, htokens, hothers, Option.bind_eq_bind,
        Option.bind_some]
      simp [htext]
    · rcases List.mem_append.mp ht with ht | ht
      · refine ⟨located_of_place hsplit (hfrom t ht).1 (hfrom t ht).2, ?_, ?_⟩
        · simp [hstart t ht]
        · simp [hstart t ht, htext]
      · obtain ⟨hplace, hlow, hhigh⟩ := hlocated t ht
        refine ⟨hplace, ?_, ?_⟩
        · simp at hlow
          omega
        · simpa [htext] using hhigh
    · refine List.pairwise_append.mpr ⟨?_, hsorted, fun t ht u hu => ?_⟩
      · refine List.pairwise_of_forall_mem_list fun t ht u hu => ?_
        rw [hstart t ht, hstart u hu]
      · have := (hlocated u hu).2.1
        rw [hstart t ht]
        simp at this ⊢
        omega

theorem posAfter_nil : posAfter [] = .start := rfl

/-- Without tokens in its interpolations, every token of a text is located by its span, their starts
are in order, and the last token is the end of the text exactly when nothing is skipped there. -/
theorem tokenize_located (hlogos : Reports logos) {src : Text} (hholes : HolesEmpty logos src)
    (fuel : ℕ) :
    ∃ tokens eof, tokenize logos (fuel + 2) src = some (tokens ++ [eof]) ∧
      (∀ t ∈ tokens ++ [eof], Located src t) ∧
      (tokens ++ [eof]).Pairwise (fun t u => t.span.start ≤ u.span.start) ∧
      eof.kind = .eof ∧ eof.span.start = eof.span.stop ∧
      (eof.span.start = bytes src ↔ (logos src).trailing = []) := by
  have hwhole : src = [] ++ itemsText (logos src).items ++ (logos src).trailing :=
    (hlogos.whole src).symm
  obtain ⟨tokens, htokens, hlocated, hsorted⟩ := @lexItems_located logos fuel src
    (logos src).items [] (logos src).trailing hwhole (hlogos.nonempty src) hholes
  rw [List.nil_append] at htokens hlocated hwhole
  let final := posAfter (itemsText (logos src).items)
  refine ⟨tokens, ⟨.eof, final.offset, final.offset, final.line, final.column⟩, ?_, ?_, ?_, rfl, rfl, ?_⟩
  · rw [tokenize, ← posAfter_nil, htokens]
    rfl
  · intro t ht
    rcases List.mem_append.mp ht with ht | ht
    · exact (hlocated t ht).1
    · obtain rfl := List.mem_singleton.mp ht
      have hsplit : src = itemsText (logos src).items ++ [] ++ (logos src).trailing := by
        simpa using hwhole
      exact located_of_place hsplit (by simp [spanOf, final, posAfter]) (by simp [Token.lexeme])
  · refine List.pairwise_append.mpr ⟨hsorted, List.pairwise_singleton _ _, fun t ht u hu => ?_⟩
    obtain rfl := List.mem_singleton.mp hu
    exact (hlocated t ht).2.2
  · have hbytes := congrArg bytes hwhole
    rw [bytes_append] at hbytes
    rw [← bytes_eq_zero]
    change bytes (itemsText (logos src).items) = bytes src ↔ _
    omega

end

/-! ### A text with a token in an interpolation -/

/-- The text `"${a}"`. -/
def hole : Text := ['"', '$', '{', 'a', '}', '"']

/-- Where a reader of words and literals stands: in a gap, in a word or in a literal. What it has read of
them is in reverse order. -/
inductive WordState where
  | gap (gap : Text)
  | word (gap slice : Text)
  | literal (gap slice : Text)

namespace WordState

def read : WordState → Text
  | gap g => g.reverse
  | word g s => g.reverse ++ s.reverse
  | literal g s => g.reverse ++ s.reverse

def Begun : WordState → Prop
  | gap _ => True
  | word _ s => s ≠ []
  | literal _ s => s ≠ []

end WordState

def RawStream.cons (i : RawItem) (s : RawStream) : RawStream := ⟨i :: s.items, s.trailing⟩

/-- The raw tokens of a text of blanks, words and literals between double quotes. -/
def wordsFrom : WordState → Text → RawStream
  | .gap g, [] => ⟨[], g.reverse⟩
  | .word g s, [] => ⟨[⟨g.reverse, some .identifier, s.reverse⟩], []⟩
  | .literal g s, [] => ⟨[⟨g.reverse, none, s.reverse⟩], []⟩
  | .gap g, c :: rest =>
    if c.isWhitespace then wordsFrom (.gap (c :: g)) rest
    else if c = '"' then wordsFrom (.literal g [c]) rest
    else wordsFrom (.word g [c]) rest
  | .word g s, c :: rest =>
    if c.isWhitespace then (wordsFrom (.gap [c]) rest).cons ⟨g.reverse, some .identifier, s.reverse⟩
    else wordsFrom (.word g (c :: s)) rest
  | .literal g s, c :: rest =>
    if c = '"' then (wordsFrom (.gap []) rest).cons ⟨g.reverse, some .stringLiteral, (c :: s).reverse⟩
    else wordsFrom (.literal g (c :: s)) rest

def words : Logos := wordsFrom (.gap [])

theorem wordsFrom_whole (state : WordState) (t : Text) :
    (wordsFrom state t).items.flatMap (fun i => i.gap ++ i.slice) ++ (wordsFrom state t).trailing =
      state.read ++ t := by
  fun_induction wordsFrom state t <;> simp_all [WordState.read, RawStream.cons]

theorem wordsFrom_nonempty (state : WordState) (t : Text) (hstate : state.Begun) :
    ∀ i ∈ (wordsFrom state t).items, i.slice ≠ [] := by
  fun_induction wordsFrom state t <;> simp_all [WordState.Begun, RawStream.cons]

theorem reports_words : Reports words :=
  ⟨wordsFrom_whole (.gap []), fun src => wordsFrom_nonempty (.gap []) src trivial⟩

/-- The identifier of an interpolation gets the span of the opening quote. -/
theorem not_located_hole :
    ∃ tokens, tokenize words 2 hole = some tokens ∧ ∃ t ∈ tokens, ¬ Located hole t := by
  refine ⟨_, rfl, ⟨.identifier "a", 0, 1, 1, 1⟩, by decide, ?_⟩
  rintro ⟨-, -, before, inside, after, hsrc, hstart, hstop, -, -, hlexeme⟩
  obtain rfl : before = [] := bytes_eq_zero.mp hstart.symm
  cases inside with
  | nil => simp at hstop
  | cons c rest =>
    obtain ⟨rfl, -⟩ : '"' = c ∧ _ := by simpa [hole] using hsrc
    have hquote : bytes ('"' :: rest) = 1 + bytes rest := by simp [bytes]; rfl
    obtain rfl : rest = [] := bytes_eq_zero.mp (by simp only [bytes_nil, hquote] at hstop; omega)
    exact absurd hlexeme (by decide)

/-- A word, a line break, and a literal with a hole that holds a blank only. -/
def blankHole : Text := ['x', '\n', ' ', '"', 'a', '$', '{', ' ', '}', 'b', '"']

theorem tokenize_located_blankHole :
    ∃ tokens eof, tokenize words 2 blankHole = some (tokens ++ [eof]) ∧ tokens.length = 3 ∧
      (∀ t ∈ tokens ++ [eof], Located blankHole t) ∧ eof.span.start = 11 := by
  have hholes : HolesEmpty words blankHole := by
    intro i hi
    have hitems : (words blankHole).items = [⟨[], some .identifier, ['x']⟩,
        ⟨['\n', ' '], some .stringLiteral, ['"', 'a', '$', '{', ' ', '}', 'b', '"']⟩] := rfl
    rw [hitems] at hi
    rcases List.mem_cons.mp hi with rfl | hi
    · simp [holes]
    · obtain rfl := List.mem_singleton.mp hi
      intro source hsource
      obtain rfl : source = [' '] := List.mem_singleton.mp hsource
      rfl
  obtain ⟨tokens, eof, htokens, hlocated, -, -, -, hend⟩ := tokenize_located reports_words hholes 0
  have hlength : (tokens ++ [eof]).length = 4 := congrArg (fun t => (t.map List.length).getD 0) htokens.symm
  exact ⟨tokens, eof, htokens, by simpa using hlength, hlocated, hend.mpr rfl⟩

end Neutron.Source
