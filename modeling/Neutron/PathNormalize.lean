import Neutron.PathRelative

/-!
# `paths.normalize`

The components are taken one by one into a buffer: a name is pushed, `..` pops. On an empty buffer the pop
does nothing, so that a `..` of a relative path that climbs above its start is lost.
-/

namespace Neutron.Paths

open Component

/-! ## The model -/

/-- `Component::as_os_str` -/
def componentText : Component → List Char
  | rootDir => ['/']
  | curDir => ['.']
  | parentDir => ['.', '.']
  | normal name => name

/-- The text of a buffer that the components were pushed to. -/
def pathText : Path → List Char
  | rootDir :: rest => '/' :: List.intercalate ['/'] (rest.map componentText)
  | p => List.intercalate ['/'] (p.map componentText)

/-- `PathBuf::pop` -/
def pop (p : Path) : Path := p.parent.getD p

def normalizeStep (result : Path) : Component → Path
  | parentDir => pop result
  | curDir => result
  | other => result.join [other]

def ntscPathsNormalize (p : List Char) : List Char := pathText ((Path.components p).foldl normalizeStep [])

/-- Where a path leads from a working directory. -/
def location (cwd : List (List Char)) (p : List Char) : Path := Path.resolve ((rooted cwd).join (Path.components p))

/-! ## The fold -/

/-- The names that are left of `names` after a path of names and `..`. -/
def settle : List (List Char) → Path → List (List Char)
  | names, [] => names
  | names, parentDir :: rest => settle names.dropLast rest
  | names, normal name :: rest => settle (names ++ [name]) rest
  | names, rootDir :: rest => settle names rest
  | names, curDir :: rest => settle names rest

variable {q : Path}

theorem rooted_concat (names : List (List Char)) (name : List Char) :
    rooted (names ++ [name]) = rooted names ++ [normal name] := by
  rw [rooted, List.map_append]
  rfl

theorem pop_rooted (names : List (List Char)) : pop (rooted names) = rooted names.dropLast := by
  induction names using List.reverseRecOn with
  | nil => rfl
  | append_singleton front name _ => rw [pop, parent_rooted_concat, List.dropLast_concat, Option.getD_some]

theorem enter_rooted (names : List (List Char)) :
    Path.enter (rooted names) parentDir = rooted names.dropLast := by
  induction names using List.reverseRecOn with
  | nil => rfl
  | append_singleton front name _ =>
    rw [rooted_concat, List.dropLast_concat]
    exact Path.enter_parentDir_concat _ _

theorem pop_names (names : List (List Char)) : pop (names.map normal) = names.dropLast.map normal := by
  induction names using List.reverseRecOn with
  | nil => rfl
  | append_singleton front name _ =>
    rw [List.map_append, List.dropLast_concat, pop, Path.parent, List.map_singleton, List.getLast?_concat,
      List.dropLast_concat, Option.getD_some]

/-- Going down to the names and up from them, one by one, settles them. -/
theorem foldl_settle {step : Path → Component → Path} {front : List (List Char) → Path}
    (hcur : ∀ p, step p curDir = p) (hparent : ∀ names, step (front names) parentDir = front names.dropLast)
    (hnormal : ∀ names name, step (front names) (normal name) = front (names ++ [name])) (hq : rootDir ∉ q)
    (names : List (List Char)) : q.foldl step (front names) = front (settle names q) := by
  induction q generalizing names with
  | nil => rfl
  | cons c q ih =>
    obtain ⟨hc, hrest⟩ := not_or.mp (fun h => hq (List.mem_cons.mpr h))
    rw [List.foldl_cons]
    cases c with
    | rootDir => exact absurd rfl hc
    | curDir =>
      rw [hcur]
      exact ih hrest names
    | parentDir =>
      rw [hparent]
      exact ih hrest names.dropLast
    | normal name =>
      rw [hnormal]
      exact ih hrest (names ++ [name])

theorem walk_rooted (hq : rootDir ∉ q) (names : List (List Char)) :
    Path.walk (rooted names) q = rooted (settle names q) :=
  foldl_settle (fun _ => rfl) enter_rooted
    (fun names name => (Path.enter_append_normal _ name).trans (rooted_concat names name).symm) hq names

theorem fold_rooted (hq : rootDir ∉ q) (names : List (List Char)) :
    q.foldl normalizeStep (rooted names) = rooted (settle names q) :=
  foldl_settle (fun _ => rfl) pop_rooted (fun names name => (rooted_concat names name).symm) hq names

theorem fold_names (hq : rootDir ∉ q) (names : List (List Char)) :
    q.foldl normalizeStep (names.map normal) = (settle names q).map normal := by
  refine foldl_settle (fun _ => rfl) pop_names (fun names name => ?_) hq names
  rw [List.map_append]
  rfl

/-! ## How far a path climbs above its start -/

/-- The number of `..` that find no name of the path itself to go up from, `depth` names in. -/
def climbs : ℕ → Path → ℕ
  | _, [] => 0
  | 0, parentDir :: rest => climbs 0 rest + 1
  | depth + 1, parentDir :: rest => climbs depth rest
  | depth, normal _ :: rest => climbs (depth + 1) rest
  | depth, rootDir :: rest => climbs depth rest
  | depth, curDir :: rest => climbs depth rest

/-- Names in front of those of the path are lost one by one to the `..` that climb above its start. -/
theorem settle_append (names s : List (List Char)) (q : Path) :
    settle (names ++ s) q = names.take (names.length - climbs s.length q) ++ settle s q := by
  induction q generalizing names s with
  | nil => rw [settle, settle, climbs, Nat.sub_zero, List.take_length]
  | cons c q ih =>
    cases c with
    | rootDir => rw [settle, settle, climbs]; exact ih names s
    | curDir => rw [settle, settle, climbs]; exact ih names s
    | normal name =>
      have hlength : (s ++ [name]).length = s.length + 1 := List.length_append
      rw [settle, settle, climbs, List.append_assoc, ih, hlength]
    | parentDir =>
      rw [settle, settle]
      induction s using List.reverseRecOn with
      | append_singleton front name _ =>
        rw [← List.append_assoc, List.dropLast_concat, List.dropLast_concat, ih, List.length_append,
          List.length_singleton, climbs]
      | nil =>
        rw [List.append_nil, List.dropLast_nil, List.length_nil, climbs]
        have hdrop := ih names.dropLast []
        rw [List.append_nil, List.length_nil] at hdrop
        rw [hdrop, List.length_dropLast, List.dropLast_eq_take, List.take_take]
        congr 2
        omega

def isName : Component → Bool
  | normal _ => true
  | _ => false

/-- Every beginning of the path has at least as many names as `..`. -/
def NeverAbove (q : Path) : Prop := ∀ front, front <+: q → front.count parentDir ≤ front.countP isName

theorem climbs_eq_zero_iff (depth : ℕ) (q : Path) :
    climbs depth q = 0 ↔ ∀ front, front <+: q → front.count parentDir ≤ depth + front.countP isName := by
  induction q generalizing depth with
  | nil =>
    refine ⟨fun _ front hfront => ?_, fun _ => rfl⟩
    rw [List.prefix_nil.mp hfront]
    exact Nat.zero_le _
  | cons c q ih =>
    have hsplit : (∀ front, front <+: c :: q → front.count parentDir ≤ depth + front.countP isName) ↔
        ∀ front, front <+: q → (c :: front).count parentDir ≤ depth + (c :: front).countP isName := by
      constructor
      · exact fun h front hfront => h (c :: front) ((List.prefix_cons_inj c).mpr hfront)
      · intro h front hfront
        rcases List.prefix_cons_iff.mp hfront with rfl | ⟨rest, rfl, hrest⟩
        · exact Nat.zero_le _
        · exact h rest hrest
    rw [hsplit]
    cases c with
    | rootDir =>
      rw [climbs, ih depth]
      simp [isName]
    | curDir =>
      rw [climbs, ih depth]
      simp [isName]
    | normal name =>
      have hfront : ∀ front : Path, (normal name :: front).count parentDir = front.count parentDir ∧
          (normal name :: front).countP isName = front.countP isName + 1 := fun front =>
        ⟨List.count_cons_of_ne (by simp), List.countP_cons_of_pos rfl⟩
      rw [climbs, ih (depth + 1)]
      refine forall₂_congr fun front _ => ?_
      rw [(hfront front).1, (hfront front).2]
      omega
    | parentDir =>
      cases depth with
      | zero =>
        rw [climbs]
        refine ⟨fun h => absurd h (Nat.succ_ne_zero _), fun h => ?_⟩
        have hfirst := h [] (List.nil_prefix)
        simp [isName] at hfirst
      | succ depth =>
        rw [climbs, ih depth]
        simp [isName, Nat.add_right_comm]

theorem neverAbove_iff (q : Path) : NeverAbove q ↔ climbs 0 q = 0 := by
  rw [climbs_eq_zero_iff]
  simp only [NeverAbove, Nat.zero_add]

/-! ## Reading a text back -/

/-- What a piece between separators is when it stands for a name. -/
structure IsName (name : List Char) : Prop where
  nonempty : name ≠ []
  notDot : name ≠ ['.']
  notDots : name ≠ ['.', '.']
  noSeparator : '/' ∉ name

variable {names : List (List Char)}

theorem filterMap_names (h : ∀ name ∈ names, IsName name) : names.filterMap Path.bodyComponent = names.map normal := by
  rw [List.filterMap_eq_map_iff_forall_eq_some]
  intro name hname
  have hgood := h name hname
  rw [Path.bodyComponent, if_neg (not_or.mpr ⟨hgood.nonempty, hgood.notDot⟩), if_neg hgood.notDots]

theorem componentText_names (names : List (List Char)) : (names.map normal).map componentText = names := by
  rw [List.map_map]
  exact List.map_id names

theorem pathText_names (names : List (List Char)) : pathText (names.map normal) = List.intercalate ['/'] names := by
  cases names with
  | nil => rfl
  | cons name names =>
    rw [List.map_cons, pathText, ← List.map_cons, componentText_names]
    rintro rest hroot
    cases (List.cons.inj hroot).1

theorem pathText_rooted (names : List (List Char)) : pathText (rooted names) = '/' :: List.intercalate ['/'] names := by
  rw [rooted, pathText, componentText_names]

theorem components_names (h : ∀ name ∈ names, IsName name) :
    Path.components (pathText (names.map normal)) = names.map normal := by
  rw [pathText_names]
  cases names with
  | nil => decide
  | cons name names =>
    have hpieces : (List.intercalate ['/'] (name :: names)).splitOn '/' = name :: names :=
      List.splitOn_intercalate '/' (fun l hl => (h l hl).noSeparator) (by simp)
    have hgood := h name List.mem_cons_self
    have hhead : (List.intercalate ['/'] (name :: names)).head? ≠ some '/' := by
      cases name with
      | nil => exact absurd rfl hgood.nonempty
      | cons c name =>
        rw [List.intercalate_cons_cons_left]
        intro hc
        obtain rfl := Option.some.inj hc
        exact hgood.noSeparator List.mem_cons_self
    have hdot : (name :: names).head? ≠ some ['.'] := fun hsome => hgood.notDot (Option.some.inj hsome)
    rw [Path.components, hpieces]
    simp only [if_neg hhead, if_neg hdot, filterMap_names h, List.nil_append]

theorem components_rooted (h : ∀ name ∈ names, IsName name) :
    Path.components (pathText (rooted names)) = rooted names := by
  rw [pathText_rooted]
  cases names with
  | nil => decide
  | cons name names =>
    have htext : '/' :: List.intercalate ['/'] (name :: names) = List.intercalate ['/'] ([] :: name :: names) := by
      rw [List.intercalate_cons_cons]
      rfl
    have hpieces : ('/' :: List.intercalate ['/'] (name :: names)).splitOn '/' = [] :: name :: names := by
      rw [htext]
      refine List.splitOn_intercalate '/' (fun l hl => ?_) (by simp)
      rcases List.mem_cons.mp hl with rfl | hl
      · exact List.not_mem_nil
      · exact (h l hl).noSeparator
    have hempty : Path.bodyComponent [] = none := rfl
    rw [Path.components, hpieces]
    simp only [List.head?_cons, if_true, List.filterMap_cons_none hempty, filterMap_names h]
    rfl

theorem noSeparator_of_mem_splitOn {text piece : List Char} (h : piece ∈ text.splitOn '/') : '/' ∉ piece := by
  by_cases hmem : '/' ∈ text
  · induction hn : text.length using Nat.strongRecOn generalizing text with
    | ind n ih =>
      obtain ⟨front, rest, rfl, hfront⟩ := List.eq_append_cons_of_mem hmem
      rw [List.splitOn_append_cons_self, List.splitOn_eq_singleton hfront, List.mem_append, List.mem_singleton] at h
      rcases h with rfl | h
      · exact hfront
      · by_cases hrest : '/' ∈ rest
        · exact ih _ (by rw [← hn, List.length_append, List.length_cons]; omega) h hrest rfl
        · rw [List.splitOn_eq_singleton hrest, List.mem_singleton] at h
          exact h ▸ hrest
  · rw [List.splitOn_eq_singleton hmem, List.mem_singleton] at h
    exact h ▸ hmem

theorem isName_of_bodyComponent {piece name : List Char} (hsep : '/' ∉ piece)
    (h : Path.bodyComponent piece = some (normal name)) : IsName name := by
  unfold Path.bodyComponent at h
  split at h
  · cases h
  · rename_i hskip
    obtain ⟨hnonempty, hdot⟩ := not_or.mp hskip
    split at h
    · cases h
    · rename_i hdots
      obtain rfl := Component.normal.inj (Option.some.inj h)
      exact ⟨hnonempty, hdot, hdots, hsep⟩

/-- The components of a text: the root may stand first and nowhere else, and the names are names. -/
theorem components_shape (text : List Char) :
    ∃ body, rootDir ∉ body ∧ (∀ name, normal name ∈ body → IsName name) ∧
      (Path.components text = rootDir :: body ∨ Path.components text = body) := by
  have hroot : rootDir ∉ (text.splitOn '/').filterMap Path.bodyComponent := by
    intro h
    obtain ⟨piece, -, hpiece⟩ := List.mem_filterMap.mp h
    unfold Path.bodyComponent at hpiece
    split at hpiece
    · cases hpiece
    · split at hpiece
      · cases hpiece
      · cases hpiece
  have hnames : ∀ name, normal name ∈ (text.splitOn '/').filterMap Path.bodyComponent → IsName name := by
    intro name h
    obtain ⟨piece, hmem, hpiece⟩ := List.mem_filterMap.mp h
    exact isName_of_bodyComponent (noSeparator_of_mem_splitOn hmem) hpiece
  unfold Path.components
  dsimp only
  split
  · exact ⟨_, hroot, hnames, Or.inl rfl⟩
  · split
    · refine ⟨_, ?_, ?_, Or.inr rfl⟩
      · intro h
        rcases List.mem_cons.mp h with h | h
        · cases h
        · exact hroot h
      · intro name h
        rcases List.mem_cons.mp h with h | h
        · cases h
        · exact hnames name h
    · exact ⟨_, hroot, hnames, Or.inr rfl⟩

theorem isName_settle {names : List (List Char)} (h : ∀ name ∈ names, IsName name) {q : Path}
    (hq : ∀ name, normal name ∈ q → IsName name) : ∀ name ∈ settle names q, IsName name := by
  induction q generalizing names with
  | nil => exact h
  | cons c q ih =>
    have hrest : ∀ name, normal name ∈ q → IsName name := fun name hname => hq name (List.mem_cons_of_mem c hname)
    cases c with
    | rootDir => exact ih h hrest
    | curDir => exact ih h hrest
    | parentDir => exact ih (fun name hname => h name ((List.dropLast_subset _) hname)) hrest
    | normal new =>
      refine ih (fun name hname => ?_) hrest
      rcases List.mem_append.mp hname with hname | hname
      · exact h name hname
      · rw [List.mem_singleton.mp hname]
        exact hq new List.mem_cons_self

theorem isName_settle_nil {q : Path} (hq : ∀ name, normal name ∈ q → IsName name) : ∀ name ∈ settle [] q, IsName name :=
  isName_settle (fun _ h => absurd h List.not_mem_nil) hq

/-! ## What normalizing preserves -/

variable {p : List Char} {body : Path}

theorem normalize_absolute (hroot : rootDir ∉ body) (hp : Path.components p = rootDir :: body) :
    ntscPathsNormalize p = pathText (rooted (settle [] body)) := by
  rw [ntscPathsNormalize, hp, List.foldl_cons]
  exact congrArg pathText (fold_rooted hroot [])

theorem normalize_relative (hroot : rootDir ∉ body) (hp : Path.components p = body) :
    ntscPathsNormalize p = pathText ((settle [] body).map normal) := by
  rw [ntscPathsNormalize, hp]
  exact congrArg pathText (fold_names hroot [])

theorem settle_names (names : List (List Char)) (s : List (List Char)) : settle s (names.map normal) = s ++ names := by
  induction names generalizing s with
  | nil => rw [List.map_nil, settle, List.append_nil]
  | cons name names ih =>
    rw [List.map_cons, settle, ih, List.append_assoc]
    rfl

theorem rootDir_not_mem_names (names : List (List Char)) : rootDir ∉ names.map normal := by
  intro h
  obtain ⟨name, -, hname⟩ := List.mem_map.mp h
  cases hname

theorem location_relative (cwd : List (List Char)) (hroot : rootDir ∉ body) (hp : Path.components p = body) :
    location cwd p = rooted (settle cwd body) := by
  rw [location, hp, Path.resolve_join, resolve_rooted, walk_rooted hroot]

theorem location_absolute (cwd : List (List Char)) (hroot : rootDir ∉ body)
    (hp : Path.components p = rootDir :: body) : location cwd p = rooted (settle [] body) := by
  rw [location, hp, Path.resolve_join, Path.walk_cons]
  exact walk_rooted hroot []

/-- Normalizing twice is normalizing once. -/
theorem normalize_idempotent (p : List Char) : ntscPathsNormalize (ntscPathsNormalize p) = ntscPathsNormalize p := by
  obtain ⟨body, hroot, hnames, hp | hp⟩ := components_shape p
  · have hsettled := isName_settle_nil hnames
    rw [normalize_absolute hroot hp]
    have hagain := normalize_absolute (rootDir_not_mem_names _) (components_rooted hsettled)
    rwa [settle_names, List.nil_append] at hagain
  · have hsettled := isName_settle_nil hnames
    rw [normalize_relative hroot hp]
    have hagain := normalize_relative (rootDir_not_mem_names _) (components_names hsettled)
    rwa [settle_names, List.nil_append] at hagain

/-- A text that starts at the root. -/
def IsAbsolute (p : List Char) : Prop := (Path.components p).head? = some rootDir

theorem append_eq_take_append_iff {names rest : List (List Char)} (k : ℕ) :
    names ++ rest = names.take (names.length - k) ++ rest ↔ names = [] ∨ k = 0 := by
  rw [List.append_cancel_right_eq]
  constructor
  · intro h
    have hlength := congrArg List.length h
    rw [List.length_take] at hlength
    by_cases hnames : names = []
    · exact Or.inl hnames
    · have hpos := List.length_pos_of_ne_nil hnames
      exact Or.inr (by omega)
  · rintro (rfl | rfl)
    · exact List.take_nil.symm
    · rw [Nat.sub_zero, List.take_length]

/-- Normalizing keeps the place a path leads to if and only if the path is absolute, or never climbs above
its start, or is taken from the root. -/
theorem normalize_preserves_iff (cwd : List (List Char)) (p : List Char) :
    (location cwd (ntscPathsNormalize p) = location cwd p ∧
      ntscPathsNormalize (ntscPathsNormalize p) = ntscPathsNormalize p) ↔
        IsAbsolute p ∨ cwd = [] ∨ NeverAbove (Path.components p) := by
  rw [and_iff_left (normalize_idempotent p)]
  obtain ⟨body, hroot, hnames, hp | hp⟩ := components_shape p
  · have hsettled := isName_settle_nil hnames
    have habsolute : IsAbsolute p := by
      rw [IsAbsolute, hp]
      rfl
    refine iff_of_true ?_ (Or.inl habsolute)
    rw [location_absolute cwd hroot hp, normalize_absolute hroot hp,
      location_absolute cwd (rootDir_not_mem_names _) (components_rooted hsettled), settle_names, List.nil_append]
  · have hsettled := isName_settle_nil hnames
    have hrelative : ¬ IsAbsolute p := by
      rw [IsAbsolute, hp]
      exact fun hhead => hroot (List.mem_of_mem_head? hhead)
    have happend := settle_append cwd [] body
    rw [List.append_nil, List.length_nil] at happend
    rw [or_iff_right hrelative, location_relative cwd hroot hp, normalize_relative hroot hp,
      location_relative cwd (rootDir_not_mem_names _) (components_names hsettled), settle_names, happend,
      rooted_injective.eq_iff, append_eq_take_append_iff, hp, neverAbove_iff]

/-- From `/x`, the path `../a` leads to `/a`; normalized it is `a`, which leads to `/x/a`. -/
theorem normalize_loses_parent :
    ¬ ∀ (cwd : List (List Char)) (p : List Char), location cwd (ntscPathsNormalize p) = location cwd p ∧
      ntscPathsNormalize (ntscPathsNormalize p) = ntscPathsNormalize p := by
  intro h
  obtain ⟨hplace, -⟩ := h [['x']] ['.', '.', '/', 'a']
  have hp : Path.components ['.', '.', '/', 'a'] = [parentDir, normal ['a']] := by decide
  have hroot : rootDir ∉ ([parentDir, normal ['a']] : Path) := by decide
  have ha : Path.components (pathText ([['a']].map normal)) = [['a']].map normal := by decide
  rw [location_relative _ hroot hp, normalize_relative hroot hp] at hplace
  have hlost := (location_relative [['x']] (rootDir_not_mem_names _) ha).symm.trans hplace
  exact absurd hlost (by decide)

end Neutron.Paths
