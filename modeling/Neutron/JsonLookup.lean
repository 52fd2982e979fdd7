import Mathlib.Algebra.GroupWithZero.Nat
import Neutron.JsonMeaning

/-!
# Looking up keys in a JSON text

`json.get`, `json.has` and `json.keys` do not parse the object: the first two search its text for the quoted
key and a colon, and the last pairs up quotes from the left. `Scans` says what both see where no string is
written with an escaped quote: the strings followed by a colon, at any depth, in order.
-/

namespace Neutron.Json

variable {σ : Type}

mutual

/-- The keys at any depth, in the order they are written. -/
def Node.keys : Node σ → List σ
  | .null | .bool _ | .num _ | .str _ => []
  | .arr ts => ts.keys
  | .obj ms => ms.allKeys

def Nodes.keys : Nodes σ → List σ
  | .nil => []
  | .cons t ts => t.keys ++ ts.keys

def Members.allKeys : Members σ → List σ
  | .nil => []
  | .cons k t ms => k :: (t.keys ++ ms.allKeys)

end

/-- The keys of an object itself. -/
def Members.keys : Members σ → List σ
  | .nil => []
  | .cons k _ ms => k :: ms.keys

/-- The keys of objects inside its values. -/
def Members.nestedKeys : Members σ → List σ
  | .nil => []
  | .cons _ t ms => t.keys ++ ms.nestedKeys

/-- The value bound to a key. -/
def Members.lookup (key : List ℕ) : Members (List Piece) → Option (Node (List Piece))
  | .nil => none
  | .cons k t ms => if units k = key then some t else ms.lookup key

end Neutron.Json

namespace Neutron.JsonParser

open Json

/-- `str::find`, as the text before the first match and the text after it. -/
def findStr (pat : List Char) : List Char → Option (List Char × List Char)
  | [] => if pat.isPrefixOf [] then some ([], []) else none
  | c :: s =>
    if pat.isPrefixOf (c :: s) then some ([], (c :: s).drop pat.length)
    else (findStr pat s).map fun p => (c :: p.1, p.2)

theorem findStr_length {pat s before after : List Char} (h : findStr pat s = some (before, after)) :
    after.length ≤ s.length ∧ (pat ≠ [] → after.length < s.length) := by
  induction s generalizing before with
  | nil =>
    rw [findStr] at h
    split_ifs at h with hp
    obtain ⟨-, rfl⟩ := Prod.mk.inj (Option.some.inj h)
    exact ⟨Nat.le_refl 0, fun hne => absurd (List.prefix_nil.mp (List.isPrefixOf_iff_prefix.mp hp)) hne⟩
  | cons c s ih =>
    rw [findStr] at h
    split_ifs at h with hp
    · obtain ⟨-, rfl⟩ := Prod.mk.inj (Option.some.inj h)
      rw [List.length_drop]
      refine ⟨Nat.sub_le _ _, fun hne => ?_⟩
      have hpos := List.length_pos_of_ne_nil hne
      rw [List.length_cons]
      omega
    · obtain ⟨⟨before', after'⟩, hfound, heq⟩ := Option.map_eq_some_iff.mp h
      obtain ⟨-, rfl⟩ := Prod.mk.inj heq
      have hlt := ih hfound
      rw [List.length_cons]
      exact ⟨Nat.le_succ_of_le hlt.1, fun hne => Nat.lt_succ_of_lt (hlt.2 hne)⟩

def search (key : List Char) : List Char := '"' :: (key ++ ['"', ':'])

def ntscJsonGet (json key : List Char) : List Char :=
  match findStr (search key) json with
  | some (_, remaining) =>
    match parse remaining with
    | .ok (val, _) => val
    | .error _ => ['n', 'u', 'l', 'l']
  | none => ['n', 'u', 'l', 'l']

def ntscJsonHas (json key : List Char) : Bool := (findStr (search key) json).isSome

/-- The loop of `ntsc_json_keys`. -/
def keysLoop (json : List Char) : List (List Char) :=
  match _hopen : findStr ['"'] json with
  | none => []
  | some (_, opened) =>
    match _hclose : findStr ['"'] opened with
    | none => []
    | some (key, after) => if after.head? = some ':' then key :: keysLoop after.tail else keysLoop after
termination_by json.length
decreasing_by
  · have hopened := (findStr_length _hopen).1
    have hafter := (findStr_length _hclose).2 (List.cons_ne_nil _ _)
    rw [List.length_tail]
    omega
  · have hopened := (findStr_length _hopen).1
    have hafter := (findStr_length _hclose).2 (List.cons_ne_nil _ _)
    omega

def ntscJsonKeys (json : List Char) : List Char := List.intercalate [','] (keysLoop json)

/-- What is asked of the three functions, on an object text and a key. -/
structure LooksUp (ms : Members (List Piece)) (k : List Char) : Prop where
  has : ntscJsonHas (compact (.obj ms)) k = true ↔ k.flatMap utf16 ∈ ms.keys.map units
  get : Denotes (ntscJsonGet (compact (.obj ms)) k) ((ms.lookup (k.flatMap utf16)).elim .null Node.value)
  keys : (ntscJsonKeys (compact (.obj ms))).flatMap utf16 = List.intercalate [44] (ms.keys.map units)

/-! ## Strings of a text -/

/-- The strings of a text that a colon follows, each with what is after the colon. -/
inductive Scans : List Char → List (List Char × List Char) → Prop
  | nil : Scans [] []
  | char {c s ks} (hc : c ≠ '"') (h : Scans s ks) : Scans (c :: s) ks
  | string {str s ks} (hstr : '"' ∉ str) (hs : s.head? ≠ some ':') (h : Scans s ks) :
      Scans ('"' :: (str ++ '"' :: s)) ks
  | key {str s ks} (hstr : '"' ∉ str) (h : Scans s ks) : Scans ('"' :: (str ++ '"' :: ':' :: s)) ((str, s) :: ks)

theorem findStr_quote {a : List Char} (ha : '"' ∉ a) (b : List Char) : findStr ['"'] (a ++ '"' :: b) = some (a, b) := by
  induction a with
  | nil => rfl
  | cons c a ih =>
    rw [List.mem_cons, not_or] at ha
    have hnot : ¬ (['"'].isPrefixOf (c :: (a ++ '"' :: b)) = true) := by
      rw [List.isPrefixOf_iff_prefix, List.cons_prefix_cons]
      exact fun h => ha.1 h.1
    rw [List.cons_append, findStr, if_neg hnot, ih ha.2]
    rfl

theorem findStr_char {pat : List Char} {c : Char} {s : List Char} (h : ¬ pat <+: c :: s) :
    (findStr pat (c :: s)).map Prod.snd = (findStr pat s).map Prod.snd := by
  rw [findStr, if_neg fun hp => h (List.isPrefixOf_iff_prefix.mp hp), Option.map_map]
  rfl

/-- What follows the first quote decides the keys found. -/
theorem keysLoop_eq (json : List Char) : keysLoop json =
    match (findStr ['"'] json).map Prod.snd with
    | none => []
    | some opened =>
      match findStr ['"'] opened with
      | none => []
      | some (key, after) => if after.head? = some ':' then key :: keysLoop after.tail else keysLoop after := by
  conv_lhs => rw [keysLoop]
  split
  · rename_i h
    rw [h]
    rfl
  · rename_i before opened h
    rw [h, Option.map_some]
    dsimp only
    split
    · rename_i hclose
      rw [hclose]
    · rename_i key after hclose
      rw [hclose]

theorem keysLoop_char {c : Char} (hc : c ≠ '"') (s : List Char) : keysLoop (c :: s) = keysLoop s := by
  have hnot : ¬ ['"'] <+: c :: s := by
    rw [List.cons_prefix_cons]
    exact fun h => hc h.1.symm
  rw [keysLoop_eq, keysLoop_eq s, findStr_char hnot]

theorem keysLoop_closed {str : List Char} (hstr : '"' ∉ str) (s : List Char) :
    keysLoop ('"' :: (str ++ '"' :: s)) = if s.head? = some ':' then str :: keysLoop s.tail else keysLoop s := by
  have hopen : findStr ['"'] ('"' :: (str ++ '"' :: s)) = some ([], str ++ '"' :: s) := findStr_quote List.not_mem_nil _
  rw [keysLoop_eq, hopen, Option.map_some]
  dsimp only
  rw [findStr_quote hstr]

variable {ks : List (List Char × List Char)}

theorem keysLoop_of_scans {s : List Char} (h : Scans s ks) : keysLoop s = ks.map Prod.fst := by
  induction h with
  | nil => rw [keysLoop_eq]; rfl
  | char hc _ ih => rw [keysLoop_char hc, ih]
  | string hstr hs _ ih => rw [keysLoop_closed hstr, if_neg hs, ih]
  | key hstr _ ih =>
    rw [keysLoop_closed hstr, List.head?_cons, if_pos rfl, List.tail_cons, ih]
    rfl

/-! ## Searching for a key -/

/-- The searched text stands in `s` from a closing quote or has a quote of its own. -/
def Stray (k s : List Char) : Prop := ∃ a b, s = a ++ search k ++ b ∧ (a.count '"' % 2 = 1 ∨ '"' ∈ k)

theorem search_append (k b : List Char) : search k ++ b = '"' :: (k ++ '"' :: ':' :: b) := by
  rw [search, List.cons_append, List.append_assoc]
  rfl

theorem quote_inj {a a' b b' : List Char} (ha : '"' ∉ a) (ha' : '"' ∉ a') (h : a ++ '"' :: b = a' ++ '"' :: b') :
    a = a' ∧ b = b' := by
  have hfound := findStr_quote ha b
  rw [h, findStr_quote ha'] at hfound
  obtain ⟨rfl, rfl⟩ := Prod.mk.inj (Option.some.inj hfound)
  exact ⟨rfl, rfl⟩

theorem not_stray_append {k c s : List Char} (h : ¬ Stray k (c ++ s)) (hc : c.count '"' % 2 = 0) : ¬ Stray k s := by
  rintro ⟨a, b, rfl, hodd⟩
  refine h ⟨c ++ a, b, by rw [List.append_assoc, List.append_assoc, List.append_assoc], ?_⟩
  refine hodd.imp_left fun hodd => ?_
  rw [List.count_append]
  omega

theorem even_quotes {str : List Char} (hstr : '"' ∉ str) : ('"' :: (str ++ ['"'])).count '"' % 2 = 0 := by
  rw [List.count_cons_self, List.count_append, List.count_eq_zero.mpr hstr, List.count_singleton_self]

/-- The first match is at the first key of that text. -/
theorem findStr_of_scans {s k : List Char} (h : Scans s ks) (hk : '"' ∉ k) (hstray : ¬ Stray k s) :
    (findStr (search k) s).map Prod.snd = (ks.find? fun p => p.1 = k).map Prod.snd := by
  have hclosing : ∀ {str s : List Char}, '"' ∉ str → ¬ Stray k ('"' :: (str ++ '"' :: s)) → ¬ search k <+: '"' :: s := by
    rintro str s hstr hstray ⟨b, hb⟩
    refine hstray ⟨'"' :: str, b, ?_, .inl ?_⟩
    · rw [← hb, List.append_assoc, List.cons_append]
    · rw [List.count_cons_self, List.count_eq_zero.mpr hstr]
  have hskip : ∀ {str : List Char} (s : List Char), '"' ∉ str →
      (findStr (search k) (str ++ s)).map Prod.snd = (findStr (search k) s).map Prod.snd := by
    intro str s hstr
    induction str with
    | nil => rfl
    | cons c str ih =>
      rw [List.mem_cons, not_or] at hstr
      rw [List.cons_append, findStr_char ?_, ih hstr.2]
      rw [search, List.cons_prefix_cons]
      exact fun h => hstr.1 h.1
  have hrest : ∀ {str s : List Char}, '"' ∉ str → ¬ Stray k ('"' :: (str ++ '"' :: s)) → ¬ Stray k s := by
    intro str s hstr hstray
    refine not_stray_append (c := '"' :: (str ++ ['"'])) ?_ (even_quotes hstr)
    rwa [List.cons_append, List.append_assoc]
  -- A closed string is passed over unless the match is the string itself.
  have hclosed : ∀ {str s : List Char}, '"' ∉ str → ¬ Stray k ('"' :: (str ++ '"' :: s)) →
      ¬ (str = k ∧ s.head? = some ':') →
      (findStr (search k) ('"' :: (str ++ '"' :: s))).map Prod.snd = (findStr (search k) s).map Prod.snd := by
    intro str s hstr hstray hnot
    have hopen : ¬ search k <+: '"' :: (str ++ '"' :: s) := by
      rintro ⟨b, hb⟩
      rw [search_append] at hb
      obtain ⟨rfl, rfl⟩ := quote_inj hk hstr (List.cons.inj hb).2
      exact hnot ⟨rfl, rfl⟩
    rw [findStr_char hopen, hskip _ hstr, findStr_char (hclosing hstr hstray)]
  induction h with
  | nil => rfl
  | @char c s ks hc _ ih =>
    have hstray' : ¬ Stray k s := by
      refine not_stray_append (c := [c]) hstray ?_
      rw [List.count_eq_zero.mpr (by rw [List.mem_singleton]; exact hc.symm)]
    have hnot : ¬ search k <+: c :: s := by
      rw [search, List.cons_prefix_cons]
      exact fun h => hc h.1.symm
    rw [findStr_char hnot, ih hstray']
  | string hstr hs _ ih => rw [hclosed hstr hstray fun h => hs h.2, ih (hrest hstr hstray)]
  | @key str s ks hstr _ ih =>
    by_cases heq : str = k
    · subst heq
      have hprefix : (search str).isPrefixOf ('"' :: (str ++ '"' :: ':' :: s)) = true := by
        rw [← search_append, List.isPrefixOf_iff_prefix]
        exact List.prefix_append _ _
      have hdrop : ('"' :: (str ++ '"' :: ':' :: s)).drop (search str).length = s := by
        rw [← search_append, List.drop_left]
      rw [findStr, if_pos hprefix, hdrop, List.find?_cons_of_pos (by simp)]
      rfl
    · have hcolon : ¬ Stray k s := by
        refine not_stray_append (c := [':']) (hrest hstr hstray) (by decide)
      have hnot : ¬ search k <+: ':' :: s := by
        rw [search, List.cons_prefix_cons]
        exact fun h => absurd h.1 (by decide)
      rw [hclosed hstr hstray fun h => heq h.1, findStr_char hnot, ih hcolon, List.find?_cons_of_neg (by simpa using heq)]

theorem prefix_of_findStr {pat s : List Char} {p : List Char × List Char} (h : findStr pat s = some p) :
    s = p.1 ++ pat ++ p.2 := by
  induction s generalizing p with
  | nil =>
    rw [findStr] at h
    split_ifs at h with hp
    obtain rfl := Option.some.inj h
    rw [List.prefix_nil.mp (List.isPrefixOf_iff_prefix.mp hp)]
    rfl
  | cons c s ih =>
    rw [findStr] at h
    split_ifs at h with hp
    · obtain rfl := Option.some.inj h
      exact (List.prefix_iff_eq_append.mp (List.isPrefixOf_iff_prefix.mp hp)).symm
    · obtain ⟨q, hfound, rfl⟩ := Option.map_eq_some_iff.mp h
      exact congrArg (c :: ·) (ih hfound)

/-- A key with a quote is found astray or not at all. -/
theorem findStr_quoted_key {s k : List Char} (hk : '"' ∈ k) (hstray : ¬ Stray k s) : findStr (search k) s = none := by
  cases h : findStr (search k) s with
  | none => rfl
  | some p => exact absurd ⟨p.1, p.2, prefix_of_findStr h, .inr hk⟩ hstray

/-! ## The strings of a compact text -/

/-- No string or key is written with an escaped quote. -/
def Unquoted (t : Node (List Piece)) : Prop := t.All (fun ps => '"' ∉ text ps) IsNumber

/-- The keys of an object as they are written, with the texts after their colons. -/
inductive Binds : Members (List Piece) → List (List Char × List Char) → Prop
  | nil : Binds .nil []
  | cons {k t ms ks} (rest) (hrest : Stops rest) (h : Binds ms ks) :
      Binds (.cons k t ms) ((text k, compact t ++ rest) :: ks)

theorem not_colon_of_stops {s : List Char} (h : Stops s) : s.head? ≠ some ':' := by
  intro hcolon
  rcases h ':' hcolon with hws | hcomma | hbracket | hbrace
  · exact absurd hws (by simp [IsWs])
  · exact absurd hcomma (by decide)
  · exact absurd hbracket (by decide)
  · exact absurd hbrace (by decide)

theorem quote_not_mem_number {digits : List Char} (h : IsNumber digits) : '"' ∉ digits := by
  obtain ⟨d, cs, hdigits, -, hcontinues⟩ := split_isNumber h
  have hall : ∀ {cs : List Char} {previous : Option UInt8}, Continues previous cs → '"' ∉ cs := by
    intro cs
    induction cs with
    | nil => exact fun _ => List.not_mem_nil
    | cons c cs ih =>
      intro previous hc hmem
      rcases List.mem_cons.mp hmem with rfl | hmem
      · exact absurd hc.1 (by simp)
      · exact ih hc.2 hmem
  rcases hdigits with rfl | rfl
  · exact hall (hcontinues none)
  · rw [List.mem_cons, not_or]
    exact ⟨by decide, hall (hcontinues none)⟩

theorem scans_append {cs s : List Char} (hcs : '"' ∉ cs) (h : Scans s ks) : Scans (cs ++ s) ks := by
  induction cs with
  | nil => exact h
  | cons c cs ih =>
    rw [List.mem_cons, not_or] at hcs
    exact .char (Ne.symm hcs.1) (ih hcs.2)

theorem scans_member {k : List Piece} {t : Node (List Piece)} {rest : List Char}
    (hkey : '"' ∉ text k) (h : Scans (compact t ++ rest) ks) :
    Scans ((quoted (text k) ++ ':' :: compact t) ++ rest) ((text k, compact t ++ rest) :: ks) := by
  have hmember := Scans.key hkey h
  rw [quoted, List.append_assoc, List.cons_append, List.cons_append, List.append_assoc]
  exact hmember

mutual

theorem scans_value : ∀ (t : Node (List Piece)) {s : List Char} {ks : List (List Char × List Char)}, Unquoted t →
    Stops s → Scans s ks → ∃ ks', Scans (compact t ++ s) (ks' ++ ks) ∧ ks'.map Prod.fst = t.keys.map text
  | .null, _, _, _, _, h => ⟨[], scans_append (by decide) h, rfl⟩
  | .bool true, _, _, _, _, h => ⟨[], scans_append (by decide) h, rfl⟩
  | .bool false, _, _, _, _, h => ⟨[], scans_append (by decide) h, rfl⟩
  | .num _, _, _, hnumber, _, h => ⟨[], scans_append (quote_not_mem_number hnumber) h, rfl⟩
  | .str ps, s, ks, hquotes, hs, h => by
    have hscans := Scans.string hquotes (not_colon_of_stops hs) h
    refine ⟨[], ?_, rfl⟩
    change Scans ('"' :: (text ps ++ ['"'] ++ s)) ks
    rwa [List.append_assoc]
  | .arr ts, s, ks, hquotes, _, h => by
    obtain ⟨ks', hscans, hkeys⟩ := scans_elements ts hquotes (stops_cons (by simp) s) (.char (c := ']') (by decide) h)
    refine ⟨ks', ?_, hkeys⟩
    rw [compact, Node.render, List.cons_append, List.append_assoc]
    exact .char (by decide) hscans
  | .obj ms, s, ks, hquotes, _, h => by
    obtain ⟨ks', hscans, hkeys, -⟩ :=
      scans_members ms hquotes (stops_cons (by simp) s) (.char (c := '}') (by decide) h)
    refine ⟨ks', ?_, hkeys⟩
    rw [compact, Node.render, List.cons_append, List.append_assoc]
    exact .char (by decide) hscans

theorem scans_elements : ∀ (ts : Nodes (List Piece)) {s : List Char} {ks : List (List Char × List Char)},
    ts.All (fun ps => '"' ∉ text ps) IsNumber → Stops s → Scans s ks →
    ∃ ks', Scans (List.intercalate [','] (ts.renders fun ps => quoted (text ps)) ++ s) (ks' ++ ks) ∧
      ks'.map Prod.fst = ts.keys.map text
  | .nil, _, _, _, _, h => ⟨[], h, rfl⟩
  | .cons t .nil, s, ks, ⟨hquotes, _⟩, hs, h => by
    obtain ⟨ks', hscans, hkeys⟩ := scans_value t hquotes hs h
    rw [Nodes.renders, Nodes.renders, List.intercalate_singleton]
    refine ⟨ks', hscans, ?_⟩
    rw [hkeys, Nodes.keys, Nodes.keys, List.append_nil]
  | .cons t (.cons t' ts), s, ks, ⟨hquotes, hquotes'⟩, hs, h => by
    obtain ⟨ks', hscans', hkeys'⟩ := scans_elements (.cons t' ts) hquotes' hs h
    obtain ⟨ks'', hscans, hkeys⟩ := scans_value t hquotes (stops_cons (by simp) _) (.char (c := ',') (by decide) hscans')
    rw [Nodes.renders, Nodes.renders, List.intercalate_cons_cons, List.append_assoc, List.append_assoc]
    refine ⟨ks'' ++ ks', ?_, ?_⟩
    · rw [List.append_assoc]
      exact hscans
    · rw [List.map_append, hkeys, hkeys', ← List.map_append]
      rfl

theorem scans_members : ∀ (ms : Members (List Piece)) {s : List Char} {ks : List (List Char × List Char)},
    ms.All (fun ps => '"' ∉ text ps) IsNumber → Stops s → Scans s ks →
    ∃ ks', Scans (List.intercalate [','] (ms.renders fun ps => quoted (text ps)) ++ s) (ks' ++ ks) ∧
      ks'.map Prod.fst = ms.allKeys.map text ∧ (ms.nestedKeys = [] → Binds ms ks')
  | .nil, _, _, _, _, h => ⟨[], h, rfl, fun _ => .nil⟩
  | .cons k t .nil, s, ks, ⟨hkey, hquotes, _⟩, hs, h => by
    obtain ⟨ks', hscans, hkeys⟩ := scans_value t hquotes hs h
    rw [Members.renders, Members.renders, List.intercalate_singleton]
    refine ⟨_ :: ks', scans_member hkey hscans, ?_, fun hnested => ?_⟩
    · rw [List.map_cons, hkeys, Members.allKeys, Members.allKeys, List.append_nil]
      rfl
    · rw [Members.nestedKeys, Members.nestedKeys, List.append_nil] at hnested
      rw [hnested, List.map_nil, List.map_eq_nil_iff] at hkeys
      rw [hkeys]
      exact .cons s hs .nil
  | .cons k t (.cons k' t' ms), s, ks, ⟨hkey, hquotes, hquotes'⟩, hs, h => by
    obtain ⟨ks', hscans', hkeys', hbinds⟩ := scans_members (.cons k' t' ms) hquotes' hs h
    have hstops := stops_cons (c := ',') (by simp)
      (List.intercalate [','] ((Members.cons k' t' ms).renders fun ps => quoted (text ps)) ++ s)
    obtain ⟨ks'', hscans, hkeys⟩ := scans_value t hquotes hstops (.char (c := ',') (by decide) hscans')
    rw [← List.append_assoc] at hscans
    rw [Members.renders, Members.renders, List.intercalate_cons_cons, List.append_assoc, List.append_assoc]
    refine ⟨_ :: (ks'' ++ ks'), scans_member hkey hscans, ?_, fun hnested => ?_⟩
    · rw [List.map_cons, List.map_append, hkeys, hkeys', ← List.map_append]
      rfl
    · obtain ⟨ht, hms⟩ := List.append_eq_nil_iff.mp hnested
      rw [ht, List.map_nil, List.map_eq_nil_iff] at hkeys
      rw [hkeys]
      exact .cons _ hstops (hbinds hms)

end

/-! ## Keys as they are written and as they are read -/

/-- A string written without escapes. -/
def Written (ps : List Piece) : Prop := ∀ p ∈ ps, ∃ c, p = Piece.plain c

theorem utf16_append_inj {c d : Char} {x y : List ℕ} (h : utf16 c ++ x = utf16 d ++ y) : c = d ∧ x = y := by
  have hvalid : ∀ c : Char, c.toNat < 0xD800 ∨ 0xDFFF < c.toNat ∧ c.toNat < 0x110000 := fun c => c.valid
  have hc := hvalid c
  have hd := hvalid d
  rw [utf16, utf16] at h
  split_ifs at h with hsmall hsmall' hsmall'
  · obtain ⟨heq, htail⟩ := List.cons.inj h
    exact ⟨Char.toNat_inj.mp heq, htail⟩
  · have heq := (List.cons.inj h).1
    omega
  · have heq := (List.cons.inj h).1
    omega
  · obtain ⟨heq, htail⟩ := List.cons.inj h
    obtain ⟨heq', htail⟩ := List.cons.inj htail
    refine ⟨Char.toNat_inj.mp ?_, htail⟩
    omega

theorem utf16_inj {s t : List Char} (h : s.flatMap utf16 = t.flatMap utf16) : s = t := by
  induction s generalizing t with
  | nil =>
    rcases t with _ | ⟨d, t⟩
    · rfl
    · exact absurd (List.append_eq_nil_iff.mp h.symm).1 (utf16_ne_nil d)
  | cons c s ih =>
    rcases t with _ | ⟨d, t⟩
    · exact absurd (List.append_eq_nil_iff.mp h).1 (utf16_ne_nil c)
    · obtain ⟨rfl, hrest⟩ := utf16_append_inj h
      rw [ih hrest]

theorem units_written {ps : List Piece} (h : Written ps) : units ps = (text ps).flatMap utf16 := by
  induction ps with
  | nil => rfl
  | cons p ps ih =>
    obtain ⟨c, rfl⟩ := h p List.mem_cons_self
    change utf16 c ++ units ps = utf16 c ++ (text ps).flatMap utf16
    rw [ih fun q hq => h q (List.mem_cons_of_mem _ hq)]

theorem length_units_piece {p : Piece} (h : p.Ok) :
    p.units.length ≤ (p.text.flatMap utf16).length ∧
      (p.units.length = (p.text.flatMap utf16).length → ∃ c, p = .plain c) := by
  cases p with
  | plain c =>
    have htext : (Piece.plain c).text.flatMap utf16 = utf16 c := List.append_nil _
    exact ⟨by rw [htext]; exact Nat.le_refl _, fun _ => ⟨c, rfl⟩⟩
  | escape e =>
    have hunits : (Piece.escape e).units.length = 1 := by cases e <;> rfl
    have htext : ((Piece.escape e).text.flatMap utf16).length = 2 := by cases e <;> rfl
    rw [hunits, htext]
    exact ⟨by decide, fun h => absurd h (by decide)⟩
  | unicode h1 h2 h3 h4 =>
    have hunits : (Piece.unicode h1 h2 h3 h4).units.length = 1 := rfl
    obtain ⟨hh1, hh2, hh3, hh4⟩ := h
    have hascii : ∀ c ∈ (Piece.unicode h1 h2 h3 h4).text, IsAscii c := by
      simp only [Piece.text, List.forall_mem_cons]
      exact ⟨by decide, by decide, isAscii_of_isHex hh1, isAscii_of_isHex hh2, isAscii_of_isHex hh3,
        isAscii_of_isHex hh4, fun c hc => absurd hc List.not_mem_nil⟩
    have hlength : (Piece.unicode h1 h2 h3 h4).text.length = 6 := rfl
    rw [flatMap_utf16_ascii hascii, List.length_map, hunits, hlength]
    exact ⟨by decide, fun h => absurd h (by decide)⟩

/-- A string has more units as it is written than as it is read, unless it has no escapes. -/
theorem length_units_text {ps : List Piece} (h : ∀ p ∈ ps, p.Ok) :
    (units ps).length ≤ ((text ps).flatMap utf16).length ∧
      ((units ps).length = ((text ps).flatMap utf16).length → Written ps) := by
  induction ps with
  | nil => exact ⟨Nat.le_refl 0, fun _ p hp => absurd hp List.not_mem_nil⟩
  | cons p ps ih =>
    obtain ⟨hle, hwritten⟩ := ih fun q hq => h q (List.mem_cons_of_mem _ hq)
    obtain ⟨hpiece, hplain⟩ := length_units_piece (h p List.mem_cons_self)
    have hunits : (units (p :: ps)).length = p.units.length + (units ps).length := List.length_append
    have htext : ((text (p :: ps)).flatMap utf16).length =
        (p.text.flatMap utf16).length + ((text ps).flatMap utf16).length := by
      have hsplit : text (p :: ps) = p.text ++ text ps := rfl
      rw [hsplit, List.flatMap_append, List.length_append]
    rw [hunits, htext]
    refine ⟨Nat.add_le_add hpiece hle, fun heq => ?_⟩
    exact List.forall_mem_cons.mpr ⟨hplain (by omega), hwritten (by omega)⟩

/-! ## Lists of keys -/

theorem length_intercalate (x : ℕ) {L : List (List ℕ)} (h : L ≠ []) :
    (List.intercalate [x] L).length + 1 = (L.map fun l => l.length + 1).sum := by
  induction L with
  | nil => exact absurd rfl h
  | cons l L ih =>
    rcases L with _ | ⟨l', L⟩
    · rw [List.intercalate_singleton]
      rfl
    · have hrest := ih (List.cons_ne_nil _ _)
      rw [List.map_cons, List.sum_cons, ← hrest, List.intercalate_cons_cons, List.length_append, List.length_append,
        List.length_singleton]
      omega

theorem flatMap_intercalate (L : List (List Char)) :
    (List.intercalate [','] L).flatMap utf16 = List.intercalate [44] (L.map fun l => l.flatMap utf16) := by
  induction L with
  | nil => rfl
  | cons l L ih =>
    rcases L with _ | ⟨l', L⟩
    · rw [List.intercalate_singleton, List.map_singleton, List.intercalate_singleton]
    · rw [List.intercalate_cons_cons, List.flatMap_append, List.flatMap_append, ih, List.map_cons, List.map_cons,
        List.map_cons, List.intercalate_cons_cons]
      rfl

theorem sum_eq_of_le {α : Type} {v w : α → ℕ} {l : List α} (hle : ∀ x ∈ l, v x ≤ w x) :
    (l.map v).sum ≤ (l.map w).sum ∧ ((l.map v).sum = (l.map w).sum → ∀ x ∈ l, v x = w x) := by
  induction l with
  | nil => exact ⟨Nat.le_refl 0, fun _ x hx => absurd hx List.not_mem_nil⟩
  | cons y l ih =>
    obtain ⟨hsum, heq⟩ := ih fun x hx => hle x (List.mem_cons_of_mem _ hx)
    have hy := hle y List.mem_cons_self
    rw [List.map_cons, List.map_cons, List.sum_cons, List.sum_cons]
    refine ⟨Nat.add_le_add hy hsum, fun h => List.forall_mem_cons.mpr ⟨by omega, heq (by omega)⟩⟩

theorem sum_allKeys (w : List Piece → ℕ) : ∀ ms : Members (List Piece),
    (ms.allKeys.map w).sum = (ms.keys.map w).sum + (ms.nestedKeys.map w).sum
  | .nil => rfl
  | .cons k t ms => by
    rw [Members.allKeys, Members.keys, Members.nestedKeys, List.map_cons, List.map_cons, List.sum_cons, List.sum_cons,
      List.map_append, List.map_append, List.sum_append, List.sum_append, sum_allKeys w ms]
    omega

theorem allKeys_of_flat : ∀ {ms : Members (List Piece)}, ms.nestedKeys = [] → ms.allKeys = ms.keys
  | .nil, _ => rfl
  | .cons k t ms, h => by
    obtain ⟨ht, hms⟩ := List.append_eq_nil_iff.mp h
    rw [Members.allKeys, Members.keys, ht, List.nil_append, allKeys_of_flat hms]

theorem all_keys {P : List Piece → Prop} {N : List Char → Prop} : ∀ {ms : Members (List Piece)}, ms.All P N →
    ∀ k ∈ ms.keys, P k
  | .nil, _ => fun _ hk => absurd hk List.not_mem_nil
  | .cons _ _ _, ⟨hk, _, hms⟩ => List.forall_mem_cons.mpr ⟨hk, all_keys hms⟩

theorem all_lookup {P : List Piece → Prop} {N : List Char → Prop} {key : List ℕ} {t : Node (List Piece)} :
    ∀ {ms : Members (List Piece)}, ms.All P N → ms.lookup key = some t → t.All P N
  | .nil, _, h => absurd h (by simp [Members.lookup])
  | .cons k t' ms, ⟨_, ht, hms⟩, h => by
    rw [Members.lookup] at h
    split_ifs at h
    · exact Option.some.inj h ▸ ht
    · exact all_lookup hms h

variable {ms : Members (List Piece)}

/-- The keys listed are the object's own if and only if no value has keys and no key is escaped. -/
theorem keys_listed_iff (hok : ms.All (fun ps => ∀ p ∈ ps, p.Ok) IsNumber) :
    List.intercalate [44] (ms.allKeys.map fun k => (text k).flatMap utf16) = List.intercalate [44] (ms.keys.map units) ↔
      ms.nestedKeys = [] ∧ ∀ k ∈ ms.keys, Written k := by
  constructor
  · intro h
    cases ms with
    | nil => exact ⟨rfl, fun k hk => absurd hk List.not_mem_nil⟩
    | cons k t ms =>
      have hlengths := all_keys hok
      generalize hall : Members.cons k t ms = all at *
      have hall' : all.allKeys ≠ [] ∧ all.keys ≠ [] := by
        rw [← hall, Members.allKeys, Members.keys]
        exact ⟨List.cons_ne_nil _ _, List.cons_ne_nil _ _⟩
      have hwritten := length_intercalate 44 (L := all.allKeys.map fun k => (text k).flatMap utf16)
        (fun hnil => hall'.1 (List.map_eq_nil_iff.mp hnil))
      have hread := length_intercalate 44 (L := all.keys.map units)
        (fun hnil => hall'.2 (List.map_eq_nil_iff.mp hnil))
      rw [h, hread, List.map_map, List.map_map, sum_allKeys] at hwritten
      obtain ⟨hle, heq⟩ := sum_eq_of_le (l := all.keys) (v := (fun l => l.length + 1) ∘ units)
        (w := (fun l => l.length + 1) ∘ fun k => (text k).flatMap utf16)
        fun k hk => Nat.succ_le_succ (length_units_text (hlengths k hk)).1
      refine ⟨?_, fun k hk => (length_units_text (hlengths k hk)).2 (Nat.succ.inj (heq (by omega) k hk))⟩
      rcases hnested : all.nestedKeys with _ | ⟨k', ks⟩
      · rfl
      · rw [hnested, List.map_cons, List.sum_cons] at hwritten
        have hpos : ((fun l => l.length + 1) ∘ fun k => (text k).flatMap utf16) k' ≠ 0 := Nat.succ_ne_zero _
        omega
  · rintro ⟨hflat, hwritten⟩
    rw [allKeys_of_flat hflat, List.map_congr_left fun k hk => (units_written (hwritten k hk)).symm]

/-! ## Lookups -/

theorem scans_object (hquotes : Unquoted (.obj ms)) :
    ∃ ks, Scans (compact (.obj ms)) ks ∧ ks.map Prod.fst = ms.allKeys.map text ∧ (ms.nestedKeys = [] → Binds ms ks) := by
  have hstops := stops_cons (c := '}') (by simp) []
  obtain ⟨ks, hscans, hkeys, hbinds⟩ := scans_members ms hquotes hstops (.char (by decide) .nil)
  rw [List.append_nil] at hscans
  exact ⟨ks, .char (by decide) hscans, hkeys, hbinds⟩

/-- The first string that is the key followed by a colon is the key of the value bound to it. -/
theorem find_of_binds (h : Binds ms ks) (hwritten : ∀ key ∈ ms.keys, Written key) (k : List Char) :
    (ms.lookup (k.flatMap utf16) = none → ks.find? (fun p => p.1 = k) = none) ∧
      ∀ t, ms.lookup (k.flatMap utf16) = some t → ∃ rest, Stops rest ∧
        (ks.find? fun p => p.1 = k).map Prod.snd = some (compact t ++ rest) := by
  induction h with
  | nil => exact ⟨fun _ => rfl, fun t h => absurd h (by simp [Members.lookup])⟩
  | @cons key t ms ks rest hrest _ ih =>
    rw [Members.keys, List.forall_mem_cons] at hwritten
    rw [Members.lookup, units_written hwritten.1]
    by_cases hkey : text key = k
    · rw [hkey, if_pos rfl, List.find?_cons_of_pos (by simp)]
      refine ⟨fun h => absurd h (by simp), fun t' h => ⟨rest, hrest, ?_⟩⟩
      rw [← Option.some.inj h]
      rfl
    · rw [if_neg fun h => hkey (utf16_inj h), List.find?_cons_of_neg (by simpa using hkey)]
      exact ih hwritten.2

theorem lookup_isSome_iff (key : List ℕ) : ∀ ms : Members (List Piece),
    (ms.lookup key).isSome = true ↔ key ∈ ms.keys.map units
  | .nil => by simp [Members.lookup, Members.keys]
  | .cons k t ms => by
    rw [Members.lookup, Members.keys, List.map_cons, List.mem_cons]
    by_cases h : units k = key
    · rw [if_pos h]
      exact ⟨fun _ => .inl h.symm, fun _ => rfl⟩
    · rw [if_neg h, lookup_isSome_iff key ms]
      exact ⟨.inr, fun hmem => hmem.resolve_left (Ne.symm h)⟩

/-- On an object with no keys inside its values and no escapes in its own keys, the search is the lookup. -/
theorem findStr_lookup (hquotes : Unquoted (.obj ms)) {k : List Char}
    (hstray : ¬ Stray k (compact (.obj ms))) (hflat : ms.nestedKeys = []) (hwritten : ∀ key ∈ ms.keys, Written key) :
    (ms.lookup (k.flatMap utf16) = none → findStr (search k) (compact (.obj ms)) = none) ∧
      ∀ t, ms.lookup (k.flatMap utf16) = some t → ∃ before rest, Stops rest ∧
        findStr (search k) (compact (.obj ms)) = some (before, compact t ++ rest) := by
  by_cases hk : '"' ∈ k
  · refine ⟨fun _ => findStr_quoted_key hk hstray, fun t h => ?_⟩
    have hmem := (lookup_isSome_iff (k.flatMap utf16) ms).mp (by rw [h]; rfl)
    obtain ⟨key, hkey, hunits⟩ := List.mem_map.mp hmem
    rw [units_written (hwritten key hkey)] at hunits
    exact absurd (utf16_inj hunits ▸ hk) (all_keys hquotes key hkey)
  · obtain ⟨ks, hscans, -, hbinds⟩ := scans_object hquotes
    obtain ⟨hnone, hsome⟩ := find_of_binds (hbinds hflat) hwritten k
    have hfound := findStr_of_scans hscans hk hstray
    refine ⟨fun h => ?_, fun t h => ?_⟩
    · rw [hnone h] at hfound
      exact Option.map_eq_none_iff.mp hfound
    · obtain ⟨rest, hrest, hbound⟩ := hsome t h
      rw [hbound] at hfound
      obtain ⟨⟨before, after⟩, hsearch, rfl⟩ := Option.map_eq_some_iff.mp hfound
      exact ⟨before, rest, hrest, hsearch⟩

/-- The three functions look at the object itself if and only if its values have no keys and its own no escapes,
where nothing else is in the way of the search. -/
theorem looksUp_iff {ms : Members (List Piece)} (hwf : WellFormed (.obj ms)) (hquotes : Unquoted (.obj ms))
    {k : List Char} (hstray : ¬ Stray k (compact (.obj ms)))
    (hvalue : ∀ t, ms.lookup (k.flatMap utf16) = some t → NoUnicode t ∧ AllPlain t) :
    LooksUp ms k ↔ ms.nestedKeys = [] ∧ ∀ key ∈ ms.keys, Written key := by
  obtain ⟨ks, hscans, hkeys, -⟩ := scans_object hquotes
  have hlisted : (ntscJsonKeys (compact (.obj ms))).flatMap utf16 =
      List.intercalate [44] (ms.allKeys.map fun key => (text key).flatMap utf16) := by
    rw [ntscJsonKeys, keysLoop_of_scans hscans, hkeys, flatMap_intercalate, List.map_map]
    rfl
  rw [← keys_listed_iff hwf, ← hlisted]
  refine ⟨fun h => h.keys, fun h => ?_⟩
  obtain ⟨hflat, hwritten⟩ := (keys_listed_iff hwf).mp (hlisted.symm.trans h)
  obtain ⟨hnone, hsome⟩ := findStr_lookup hquotes hstray hflat hwritten
  rcases hlookup : ms.lookup (k.flatMap utf16) with _ | t
  · have hfound := hnone hlookup
    refine ⟨?_, ?_, h⟩
    · rw [ntscJsonHas, hfound, ← lookup_isSome_iff, hlookup]
      exact ⟨fun h => absurd h Bool.false_ne_true, fun h => absurd h Bool.false_ne_true⟩
    · rw [ntscJsonGet, hfound, hlookup]
      exact ⟨.null, text_compact (t := .null) trivial, rfl⟩
  · obtain ⟨before, rest, hrest, hfound⟩ := hsome t hlookup
    refine ⟨?_, ?_, h⟩
    · rw [ntscJsonHas, hfound, ← lookup_isSome_iff, hlookup]
      exact Iff.rfl
    · have ht : WellFormed t := all_lookup hwf hlookup
      obtain ⟨hunicode, hplain⟩ := hvalue t hlookup
      have hreads := accepted_of_derives (derives_compact t rest ht) hrest
      rw [ntscJsonGet, hfound, hlookup]
      dsimp only
      rw [parse_eq_ok_iff.mpr hreads]
      exact (denotes_rebuild_iff (decodable_of_text (text_compact ht) hunicode)).mpr hplain

/-- The members of `{"a":"x","b":1}`. -/
def twoMembers : Members (List Piece) := .cons [.plain 'a'] (.str [.plain 'x']) (.cons [.plain 'b'] (.num ['1']) .nil)

theorem looksUp_member : LooksUp twoMembers ['b'] := by
  have hword : ∀ c, Unescaped c → ∀ p ∈ [Piece.plain c], p.Ok := fun c hc => List.forall_mem_singleton.mpr hc
  have hstray : ¬ Stray ['b'] (compact (.obj twoMembers)) := by
    rintro ⟨a, b, hsplit, hodd⟩
    have hlength := congrArg List.length hsplit
    have hbound : (compact (.obj twoMembers)).length = 15 := rfl
    simp only [hbound, List.length_append, search, List.length_cons, List.length_nil] at hlength
    have hat : ∀ n ≤ 11, ((compact (.obj twoMembers)).drop n).take 4 = search ['b'] →
        ((compact (.obj twoMembers)).take n).count '"' = 4 := by decide
    have heven := hat a.length (by omega) (by rw [hsplit, List.append_assoc, List.drop_left]; rfl)
    rw [hsplit, List.append_assoc, List.take_left] at heven
    exact hodd.elim (fun h => absurd (heven ▸ h) (by decide)) (by decide)
  have hwf : WellFormed (.obj twoMembers) :=
    ⟨hword 'a' (by decide), hword 'x' (by decide), hword 'b' (by decide), isNumber_one, trivial⟩
  have hquotes : Unquoted (.obj twoMembers) :=
    ⟨by decide, (by decide : '"' ∉ text [Piece.plain 'x']), by decide, isNumber_one, trivial⟩
  refine (looksUp_iff hwf hquotes hstray fun t ht => ?_).mpr ⟨rfl, ?_⟩
  · obtain rfl : Node.num ['1'] = t := Option.some.inj ht
    exact ⟨trivial, trivial⟩
  · intro key hkey p hp
    obtain rfl | rfl : key = [.plain 'a'] ∨ key = [.plain 'b'] := by simpa [twoMembers, Members.keys] using hkey
    · exact ⟨'a', List.mem_singleton.mp hp⟩
    · exact ⟨'b', List.mem_singleton.mp hp⟩

/-- A key of an object inside a value is taken for one of the object itself. -/
theorem looksUp_nested : ¬ ∀ ms : Members (List Piece), WellFormed (.obj ms) → ∀ k, LooksUp ms k := by
  intro hall
  have hnumber := isNumber_one
  have hkey : ∀ c, Unescaped c → ∀ p ∈ [Piece.plain c], p.Ok := fun c hc p hp => by
    rw [List.mem_singleton.mp hp]
    exact hc
  have hlooks := hall (.cons [.plain 'a'] (.obj (.cons [.plain 'b'] (.num ['1']) .nil)) .nil)
    ⟨hkey 'a' (by decide), ⟨hkey 'b' (by decide), hnumber, trivial⟩, trivial⟩ ['b']
  exact absurd (hlooks.has.mp rfl) (by decide)

end Neutron.JsonParser
