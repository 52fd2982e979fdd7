import Neutron.ArchiveEnd

/-!
# Where zip extraction writes

An entry is written at the destination joined with its name. Whether that place, and its parent, lie in
the destination is decided by where the name's components lead from there: absolute names and names whose
`..` climb out leave it. Extraction stays inside exactly when every name it stores does.
-/

namespace Neutron.Archive

/-- The name of an entry leads to a place in the destination, and so does all of it but the last
component. Without a component to leave out, it is the destination's own parent that is created. -/
def Contained (dest : Path) (name : List Char) : Prop :=
  let there := Path.resolve dest
  let c := Path.components name
  Path.Below there (Path.walk there c) ∧
    match c.getLast? with
    | some .parentDir | some (.normal _) => Path.Below there (Path.walk there c.dropLast)
    | _ => ∀ p, (dest.join c).parent = some p → Path.Below there (Path.resolve p)

def storedEntries (data : List UInt8) (inflate : List UInt8 → Except String (List UInt8)) : List (List Char) :=
  match findEocd data with
  | .ok (some eocdPos) => storedNames data inflate (directory data eocdPos)
  | _ => []

variable {dest : Path} {data : List UInt8} {o : Outside}

theorem parent_join_concat (c : Path) {x : Component} (hx : x = .parentDir ∨ ∃ name, x = .normal name) :
    (dest.join (c ++ [x])).parent = some (dest.join c) := by
  have hparent : ∀ p : Path, Path.parent (p ++ [x]) = some p := by
    intro p
    rw [Path.parent, List.getLast?_concat, List.dropLast_concat]
    rcases hx with rfl | ⟨name, rfl⟩ <;> rfl
  rcases c with _ | ⟨y, rest⟩
  · rcases hx with rfl | ⟨name, rfl⟩
    · exact (hparent dest).trans (congrArg some (List.append_nil dest).symm)
    · exact (hparent dest).trans (congrArg some (List.append_nil dest).symm)
  · cases y with
    | rootDir => exact hparent (.rootDir :: rest)
    | curDir =>
      rw [List.cons_append, Path.join, Path.join]
      split
      · exact hparent (.curDir :: rest)
      · rw [← List.append_assoc]
        exact hparent (dest ++ rest)
    | parentDir =>
      change (dest ++ (Component.parentDir :: rest ++ [x])).parent = _
      rw [← List.append_assoc]
      exact hparent _
    | normal name =>
      change (dest ++ (Component.normal name :: rest ++ [x])).parent = _
      rw [← List.append_assoc]
      exact hparent _

theorem contained_iff {name : List Char} : Contained dest name ↔
    ∀ e, Asks dest name e → Path.Below (Path.resolve dest) (Path.resolve e.path) := by
  have hsplit : (∀ e, Asks dest name e → Path.Below (Path.resolve dest) (Path.resolve e.path)) ↔
      Path.Below (Path.resolve dest) (Path.walk (Path.resolve dest) (Path.components name)) ∧
        ∀ p, (dest.join (Path.components name)).parent = some p →
          Path.Below (Path.resolve dest) (Path.resolve p) := by
    rw [← Path.resolve_join]
    constructor
    · exact fun h => ⟨h _ (.file []), fun p hp => h _ (.parent hp)⟩
    · rintro ⟨hfile, hparent⟩ e (hp | bytes)
      · exact hparent _ hp
      · exact hfile
  have hlast : ∀ {x}, (Path.components name).getLast? = some x → (x = .parentDir ∨ ∃ n, x = .normal n) →
      ((∀ p, (dest.join (Path.components name)).parent = some p → Path.Below (Path.resolve dest) (Path.resolve p)) ↔
        Path.Below (Path.resolve dest) (Path.walk (Path.resolve dest) (Path.components name).dropLast)) := by
    intro x hx hkind
    obtain ⟨c, hc⟩ := List.getLast?_eq_some_iff.mp hx
    rw [hc, parent_join_concat c hkind, List.dropLast_concat, ← Path.resolve_join]
    exact ⟨fun h => h _ rfl, fun h p hp => Option.some.inj hp ▸ h⟩
  rw [hsplit, Contained]
  refine and_congr_right fun _ => ?_
  cases hx : (Path.components name).getLast? with
  | none => exact Iff.rfl
  | some x =>
    cases x with
    | rootDir => exact Iff.rfl
    | curDir => exact Iff.rfl
    | parentDir => exact (hlast hx (.inl rfl)).symm
    | normal n => exact (hlast hx (.inr ⟨n, rfl⟩)).symm

/-! ## What is written -/

theorem storeRecords_keeps (offsets : List ℕ) (count : ℕ) (log : List Effect) {e : Effect} (h : e ∈ log) :
    e ∈ (storeRecords data o dest offsets count log).1 := by
  induction offsets generalizing count log with
  | nil => exact h
  | cons offset rest ih =>
    rw [storeRecords]
    cases compressedAt data offset with
    | none => exact ih _ _ h
    | some compressed =>
      cases hbytes : decompress o.inflate (u16At data (offset + 10)) compressed with
      | error m =>
        simp only [hbytes]
        exact h
      | ok bytes =>
        obtain ⟨asked, hlog, -⟩ := store_asks o dest (nameAt data offset) bytes log
        simp only [hbytes]
        cases hstore : store o dest (nameAt data offset) bytes log with
        | mk log' r =>
          rw [hstore] at hlog
          have hkept : e ∈ log' := (show log' = log ++ asked from hlog) ▸ List.mem_append_left _ h
          cases r with
          | error m => exact hkept
          | ok u => exact ih _ _ hkept

/-- A store nothing of which is refused asks for the file and for its parent. -/
theorem store_granted (hgrants : ∀ log e, o.refuses log e = none) (name : List Char) (bytes : List UInt8)
    (log : List Effect) :
    (store o dest name bytes log).2 = .ok () ∧
      .write (dest.join (Path.components name)) bytes ∈ (store o dest name bytes log).1 ∧
      ∀ p, (dest.join (Path.components name)).parent = some p → .createDirAll p ∈ (store o dest name bytes log).1 := by
  rw [store]
  dsimp only
  cases hparent : (dest.join (Path.components name)).parent with
  | none =>
    rw [hgrants]
    exact ⟨rfl, List.mem_append_right _ List.mem_cons_self, fun p hp => absurd hp (by simp)⟩
  | some q =>
    dsimp only
    rw [hgrants, hgrants]
    refine ⟨rfl, List.mem_append_right _ List.mem_cons_self, fun p hp => ?_⟩
    obtain rfl := Option.some.inj hp
    exact List.mem_append_left _ (List.mem_append_right _ List.mem_cons_self)

/-- When nothing is refused, every stored entry is asked for. -/
theorem storeRecords_granted (hgrants : ∀ log e, o.refuses log e = none) (offsets : List ℕ) (count : ℕ)
    (log : List Effect) {name : List Char} (h : name ∈ storedNames data o.inflate offsets) :
    (∃ bytes, .write (dest.join (Path.components name)) bytes ∈ (storeRecords data o dest offsets count log).1) ∧
      ∀ p, (dest.join (Path.components name)).parent = some p →
        .createDirAll p ∈ (storeRecords data o dest offsets count log).1 := by
  induction offsets generalizing count log with
  | nil => exact absurd h List.not_mem_nil
  | cons offset rest ih =>
    rw [storedNames] at h
    rw [storeRecords]
    cases hcompressed : compressedAt data offset with
    | none =>
      rw [hcompressed] at h
      exact ih _ _ h
    | some compressed =>
      rw [hcompressed] at h
      cases hbytes : decompress o.inflate (u16At data (offset + 10)) compressed with
      | error m =>
        simp only [hbytes] at h
        exact absurd h List.not_mem_nil
      | ok bytes =>
        simp only [hbytes] at h ⊢
        obtain ⟨hok, hwrite, hparent⟩ : (store o dest (nameAt data offset) bytes log).2 = .ok () ∧ _ ∧ _ :=
          store_granted hgrants (nameAt data offset) bytes log
        cases hstore : store o dest (nameAt data offset) bytes log with
        | mk log' r =>
          rw [hstore] at hok hwrite hparent
          obtain rfl : r = .ok () := hok
          rcases List.mem_cons.mp h with rfl | h
          · exact ⟨⟨bytes, storeRecords_keeps _ _ _ hwrite⟩, fun p hp => storeRecords_keeps _ _ _ (hparent p hp)⟩
          · exact ih _ _ h

/-! ## Extraction as a whole -/

/-- Every path asked for is in the destination. -/
def StaysInside (dest : Path) (x : Extraction) : Prop :=
  ∀ e ∈ x.1, Path.Below (Path.resolve dest) (Path.resolve e.path)

theorem staysInside_of_contained (file : FileBytes) (h : ∀ name ∈ storedEntries file.bytes o.inflate, Contained dest name)
    {x : Extraction} (hx : extractZipBytes file.bytes o dest = .ok x) : StaysInside dest x := by
  rcases findEocd_ok file.bytes with ⟨hnone, -⟩ | ⟨eocdPos, -, hsome, -⟩
  · obtain rfl := Except.ok.inj ((extractZipBytes_none o dest hnone).symm.trans hx)
    exact fun e he => absurd he List.not_mem_nil
  · obtain rfl := Except.ok.inj ((extractZipBytes_ok file.bounded o dest hsome).symm.trans hx)
    rw [storedEntries, hsome] at h
    intro e he
    rcases storeRecords_stored o dest _ _ _ he with he | ⟨name, hname, hasks⟩
    · exact absurd he List.not_mem_nil
    · exact contained_iff.mp (h name hname) e hasks

theorem contained_of_staysInside (file : FileBytes) {inflate : List UInt8 → Except String (List UInt8)}
    (h : ∀ refuses x, extractZipBytes file.bytes ⟨inflate, refuses⟩ dest = .ok x → StaysInside dest x) :
    ∀ name ∈ storedEntries file.bytes inflate, Contained dest name := by
  intro name hname
  rw [storedEntries] at hname
  rcases findEocd_ok file.bytes with ⟨hnone, -⟩ | ⟨eocdPos, -, hsome, -⟩
  · rw [hnone] at hname
    exact absurd hname List.not_mem_nil
  · rw [hsome] at hname
    have hinside := h (fun _ _ => none) _ (extractZipBytes_ok file.bounded _ dest hsome)
    let o : Outside := ⟨inflate, fun _ _ => none⟩
    have hgrants : ∀ log e, o.refuses log e = none := fun _ _ => rfl
    obtain ⟨⟨bytes, hwrite⟩, hparent⟩ :
        (∃ bytes, .write (dest.join (Path.components name)) bytes ∈
          (storeRecords file.bytes o dest (directory file.bytes eocdPos) 0 []).1) ∧ _ :=
      storeRecords_granted hgrants (directory file.bytes eocdPos) 0 [] hname
    rw [contained_iff]
    rintro e (hp | bytes')
    · exact hinside _ (hparent _ hp)
    · exact (hinside _ hwrite : Path.Below _ (Path.resolve (dest.join _)))

/-- Extraction stays in the destination, whatever the file system refuses, if and only if every stored
name leads to a place in it. -/
theorem extract_staysInside_iff (file : FileBytes) (inflate : List UInt8 → Except String (List UInt8)) (dest : Path) :
    (∀ refuses x, extractZipBytes file.bytes ⟨inflate, refuses⟩ dest = .ok x → StaysInside dest x) ↔
      ∀ name ∈ storedEntries file.bytes inflate, Contained dest name :=
  ⟨contained_of_staysInside file, fun h _ _ hx => staysInside_of_contained file h hx⟩

/-- An archive of one empty entry with an absolute name. -/
def absoluteName : List UInt8 :=
  [0x50, 0x4b, 0x01, 0x02] ++ List.replicate 24 0 ++ [2, 0] ++ List.replicate 16 0 ++ [47, 120]

def oneEntryEocd : List UInt8 := eocdSignature ++ List.replicate 6 0 ++ [1, 0] ++ List.replicate 10 0

def absoluteArchive : FileBytes := ⟨absoluteName ++ oneEntryEocd ++ [], by decide⟩

theorem nameAt_absoluteArchive : nameAt absoluteArchive.bytes 0 = ['/', 'x'] := by
  have hname : (absoluteArchive.bytes.take (0 + 46 + (lengthsAt absoluteArchive.bytes 0).name)).drop (0 + 46) =
      utf8 ['/', 'x'] := by decide
  rw [nameAt, hname, fromUtf8, fromUtf8?_utf8, Option.getD_some]

theorem storedEntries_absoluteArchive (inflate : List UInt8 → Except String (List UInt8)) :
    storedEntries absoluteArchive.bytes inflate = [['/', 'x']] := by
  have hends : Ends absoluteName oneEntryEocd [] := .of_eocd _ (by decide) (by decide) (by decide) (by decide)
  have heocd : findEocd absoluteArchive.bytes = .ok (some 48) := hends.findEocd_of_le (by decide)
  have hdirectory : directory absoluteArchive.bytes 48 = [0] := by decide
  have hcompressed : compressedAt absoluteArchive.bytes 0 = some [] := by
    rw [compressedAt, nameAt_absoluteArchive]
    decide
  have hbytes : decompress inflate (u16At absoluteArchive.bytes (0 + 10)) [] = .ok [] := by
    rw [decompress, if_pos (by decide)]
  simp only [storedEntries, heocd, hdirectory, storedNames, hcompressed, hbytes, nameAt_absoluteArchive]

/-- The file of an absolute name is written outside the destination. -/
theorem extract_escapes : ¬ ∀ (file : FileBytes) inflate dest refuses x,
    extractZipBytes file.bytes ⟨inflate, refuses⟩ dest = .ok x → StaysInside dest x := by
  intro h
  have hcontained : Contained [.rootDir, .normal ['d']] ['/', 'x'] :=
    contained_of_staysInside absoluteArchive (h absoluteArchive (fun bytes => .ok bytes) _) ['/', 'x']
      (storedEntries_absoluteArchive _ ▸ List.mem_cons_self)
  obtain ⟨names, hnames⟩ := hcontained.1
  have hsecond : (Path.walk [.rootDir, .normal ['d']] (Path.components ['/', 'x']))[1]? = some (.normal ['d']) :=
    congrArg (·[1]?) hnames
  exact absurd hsecond (by decide)

end Neutron.Archive
