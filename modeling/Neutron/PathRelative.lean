import Mathlib.Data.List.Induction
import Neutron.PathComponents

/-!
# `paths.relative`

A path that starts with the base is stripped of it. Any other path is climbed to the root without ever
meeting the base, one `..` a level, so the result depends only on how deep the path is. Joined to the base
it leads back to the path when the path starts with the base, or is above it at just under half its depth.
-/

namespace Neutron.Paths

open Component

/-- `std::path::absolute` -/
def absolute (cwd : Except String Path) (p : Path) : Except String Path :=
  if p = [] then .error "cannot make an empty path absolute"
  else if p.head? = some rootDir then .ok p
  else cwd.map (·.join p)

theorem length_parent {p q : Path} (h : p.parent = some q) : q.length < p.length := by
  rw [Path.parent] at h
  split at h
  · exact absurd h (by simp)
  · exact absurd h (by simp)
  · rename_i c hc hlast
    obtain ⟨front, rfl⟩ := List.getLast?_eq_some_iff.mp hlast
    obtain rfl := Option.some.inj h
    rw [List.dropLast_concat, List.length_append]
    exact Nat.lt_succ_self _

/-- The loop: up from `current` until it starts with the base, or there is no parent. -/
def climb (absBase current result : Path) : Path :=
  match current.stripPrefix absBase with
  | some rel => if rel ≠ [] then result.join rel else result
  | none =>
    match _h : current.parent with
    | some parent => if parent ≠ current then climb absBase parent (result.join [parentDir]) else result.join [parentDir]
    | none => result.join [parentDir]
termination_by current.length
decreasing_by exact length_parent _h

/-- The path whose text is returned. -/
def ntscPathsRelative (cwd : Except String Path) (p b : List Char) : Except String Path :=
  let path := Path.components p
  let base := Path.components b
  match path.stripPrefix base with
  | some rel => .ok rel
  | none =>
    match absolute cwd path with
    | .error e => .error ("paths.relative: cannot absolutize '" ++ String.ofList p ++ "': " ++ e)
    | .ok absPath =>
      match absolute cwd base with
      | .error e => .error ("paths.relative: cannot absolutize '" ++ String.ofList b ++ "': " ++ e)
      | .ok absBase => .ok (climb absBase absPath [])

/-- An absolute path of ordinary components. -/
def rooted (names : List (List Char)) : Path := rootDir :: names.map normal

variable {ps bs : List (List Char)}

theorem normal_injective : Function.Injective normal := fun _ _ h => normal.inj h

theorem rooted_prefix_iff : rooted bs <+: rooted ps ↔ bs <+: ps := by
  rw [rooted, rooted, List.cons_prefix_cons]
  constructor
  · rintro ⟨-, rest, hrest⟩
    obtain ⟨front, back, rfl, hfront, -⟩ := List.map_eq_append_iff.mp hrest.symm
    exact (List.map_injective_iff.mpr normal_injective hfront) ▸ List.prefix_append front back
  · exact fun h => ⟨rfl, h.map normal⟩

theorem parent_rooted_concat (names : List (List Char)) (name : List Char) :
    (rooted (names ++ [name])).parent = some (rooted names) := by
  have hconcat : rooted (names ++ [name]) = rooted names ++ [normal name] := by
    rw [rooted, List.map_append]
    rfl
  rw [hconcat, Path.parent, List.getLast?_concat, List.dropLast_concat]

theorem join_parentDir (p : Path) : p.join [parentDir] = p ++ [parentDir] := rfl

/-- A path that does not start with the base is climbed to the root. -/
theorem climb_rooted (h : ¬ bs <+: ps) (result : Path) :
    climb (rooted bs) (rooted ps) result = result ++ List.replicate (ps.length + 1) parentDir := by
  induction ps using List.reverseRecOn generalizing result with
  | nil =>
    have hstrip : (rooted []).stripPrefix (rooted bs) = none := if_neg (fun hp => h (rooted_prefix_iff.mp hp))
    rw [climb, hstrip]
    rfl
  | append_singleton front name ih =>
    have hstrip : (rooted (front ++ [name])).stripPrefix (rooted bs) = none :=
      if_neg (fun hp => h (rooted_prefix_iff.mp hp))
    have hparent := parent_rooted_concat front name
    have hne : rooted front ≠ rooted (front ++ [name]) := by
      intro heq
      have hlt := length_parent hparent
      rw [heq] at hlt
      exact Nat.lt_irrefl _ hlt
    have hfront : ¬ bs <+: front := fun hp => h (hp.trans (List.prefix_append front [name]))
    rw [climb, hstrip]
    dsimp only
    split
    · rename_i parent hsome
      obtain rfl := Option.some.inj (hsome.symm.trans hparent)
      rw [if_pos hne, ih hfront, join_parentDir, List.append_assoc, List.length_append]
      rfl
    · rename_i hnone
      exact absurd (hnone.symm.trans hparent) (by simp)

theorem resolve_rooted (names : List (List Char)) : Path.resolve (rooted names) = rooted names := by
  induction names using List.reverseRecOn with
  | nil => rfl
  | append_singleton front name ih =>
    rw [rooted, List.map_append, ← List.cons_append, Path.resolve, Path.walk_append]
    rw [Path.resolve] at ih
    exact congrArg (· ++ [normal name]) ih

/-- From a rooted path, `..` goes up one level, and stays at the root. -/
theorem walk_up (names : List (List Char)) (k : ℕ) :
    Path.walk (rooted names) (List.replicate k parentDir) = rooted (names.take (names.length - k)) := by
  induction k generalizing names with
  | zero => rw [Nat.sub_zero, List.take_length]; rfl
  | succ k ih =>
    rw [List.replicate_succ, Path.walk_cons]
    induction names using List.reverseRecOn with
    | nil => exact (ih []).trans (by rw [List.take_nil, List.take_nil])
    | append_singleton front name _ =>
      have henter : Path.enter (rooted (front ++ [name])) parentDir = rooted front := by
        rw [rooted, List.map_append, ← List.cons_append]
        exact Path.enter_parentDir_concat _ _
      rw [henter, ih, List.length_append, List.length_singleton, Nat.add_sub_add_right,
        List.take_append_of_le_length (Nat.sub_le ..)]

theorem rooted_injective : Function.Injective rooted := by
  intro ps bs h
  exact List.map_injective_iff.mpr normal_injective (List.cons.inj h).2

/-- Joined to the base, the result leads back to the path if and only if the path starts with the base, or
the base starts with the path and is one more than twice as deep. -/
theorem relative_inverts_join_iff (cwd : Except String Path) {p b : List Char}
    (hp : Path.components p = rooted ps) (hb : Path.components b = rooted bs) :
    (∃ r, ntscPathsRelative cwd p b = .ok r ∧ Path.resolve ((Path.components b).join r) = Path.components p) ↔
      bs <+: ps ∨ ps <+: bs ∧ bs.length = 2 * ps.length + 1 := by
  by_cases hprefix : bs <+: ps
  · obtain ⟨rest, rfl⟩ := hprefix
    have hsplit : rooted (bs ++ rest) = rooted bs ++ rest.map normal := by
      rw [rooted, List.map_append]
      rfl
    refine iff_of_true ⟨rest.map normal, ?_, ?_⟩ (.inl (List.prefix_append bs rest))
    · rw [ntscPathsRelative, hp, hb, hsplit, Path.stripPrefix, if_pos (List.prefix_append ..), List.drop_left]
    · rw [hp, hb, Path.resolve_join, resolve_rooted, ← resolve_rooted (bs ++ rest), hsplit, Path.resolve,
        Path.walk_append]
      exact congrArg (Path.walk · _) (resolve_rooted bs).symm
  · have hresult : ntscPathsRelative cwd p b = .ok (List.replicate (ps.length + 1) parentDir) := by
      rw [ntscPathsRelative, hp, hb, Path.stripPrefix, if_neg (fun h => hprefix (rooted_prefix_iff.mp h))]
      exact congrArg Except.ok (climb_rooted hprefix [])
    have hleads : Path.resolve ((rooted bs).join (List.replicate (ps.length + 1) parentDir)) =
        rooted (bs.take (bs.length - (ps.length + 1))) := by
      rw [Path.resolve_join, resolve_rooted, walk_up]
    rw [hp, hb]
    constructor
    · rintro ⟨r, hr, hback⟩
      obtain rfl := Except.ok.inj (hresult.symm.trans hr)
      have htake := rooted_injective (hleads.symm.trans hback)
      have hlength := congrArg List.length htake
      rw [List.length_take] at hlength
      have hnonempty : bs ≠ [] := fun h => hprefix (h ▸ List.nil_prefix)
      have hpos := List.length_pos_of_ne_nil hnonempty
      exact .inr ⟨htake ▸ List.take_prefix _ bs, by omega⟩
    · rintro (h | ⟨⟨rest, rfl⟩, hlength⟩)
      · exact absurd h hprefix
      · refine ⟨_, hresult, hleads.trans ?_⟩
        rw [hlength, show 2 * ps.length + 1 - (ps.length + 1) = ps.length by omega, List.take_left]

/-- A path below the base, and one above it. -/
theorem relative_inverts_join_below :
    ∃ r, ntscPathsRelative (.ok [rootDir]) ['/', 'a', '/', 'b'] ['/', 'a'] = .ok r ∧
      Path.resolve ((Path.components ['/', 'a']).join r) = Path.components ['/', 'a', '/', 'b'] :=
  have hp : Path.components ['/', 'a', '/', 'b'] = rooted [['a'], ['b']] := by decide
  have hb : Path.components ['/', 'a'] = rooted [['a']] := by decide
  (relative_inverts_join_iff (.ok [rootDir]) hp hb).mpr (.inl (by decide))

/-- From `/b`, the path `/a` is one level up and one down; the result goes two levels up. -/
theorem relative_misses_sibling : ¬ ∀ (cwd : Except String Path) (p b : List Char) (ps bs : List (List Char)),
    Path.components p = rooted ps → Path.components b = rooted bs →
      ∃ r, ntscPathsRelative cwd p b = .ok r ∧ Path.resolve ((Path.components b).join r) = Path.components p := by
  intro h
  obtain ⟨r, hr, hback⟩ := h (.ok [rootDir]) ['/', 'a'] ['/', 'b'] [['a']] [['b']] (by decide) (by decide)
  have hprefix : ¬ [['b']] <+: [['a']] := by decide
  have hresult : ntscPathsRelative (.ok [rootDir]) ['/', 'a'] ['/', 'b'] = .ok [parentDir, parentDir] := by
    have hp : Path.components ['/', 'a'] = rooted [['a']] := by decide
    have hb : Path.components ['/', 'b'] = rooted [['b']] := by decide
    rw [ntscPathsRelative, hp, hb, Path.stripPrefix, if_neg (fun h => hprefix (rooted_prefix_iff.mp h))]
    exact congrArg Except.ok (climb_rooted hprefix [])
  obtain rfl := Except.ok.inj (hresult.symm.trans hr)
  exact absurd hback (by decide)

end Neutron.Paths
