import Neutron.ArchiveReader

/-!
# What the zip reader reads

Every access of the reader is inside the data and every offset fits: each fallible operation is proved
equal to the field it reads. The two entry loops are then folds over one list, the central directory up
to the first record that is cut off or not signed.
-/

namespace Neutron.Archive

variable {data : List UInt8}

/-! ## The fields -/

def byteAt (data : List UInt8) (pos : ℕ) : ℕ := (data.getD pos 0).toNat

def u16At (data : List UInt8) (pos : ℕ) : ℕ := byteAt data pos + 256 * byteAt data (pos + 1)

def u32At (data : List UInt8) (pos : ℕ) : ℕ :=
  byteAt data pos + 256 * byteAt data (pos + 1) + 65536 * byteAt data (pos + 2) + 16777216 * byteAt data (pos + 3)

theorem byteAt_lt (data : List UInt8) (pos : ℕ) : byteAt data pos < 256 := (data.getD pos 0).toNat_lt

theorem u16At_lt (data : List UInt8) (pos : ℕ) : u16At data pos < 2 ^ 16 := by
  have h0 := byteAt_lt data pos
  have h1 := byteAt_lt data (pos + 1)
  rw [u16At]
  omega

theorem u32At_lt (data : List UInt8) (pos : ℕ) : u32At data pos < 2 ^ 32 := by
  have h0 := byteAt_lt data pos
  have h1 := byteAt_lt data (pos + 1)
  have h2 := byteAt_lt data (pos + 2)
  have h3 := byteAt_lt data (pos + 3)
  rw [u32At]
  omega

theorem usizeAdd_ok {a b : ℕ} (h : a + b < 2 ^ 64) : usizeAdd a b = .ok (a + b) := if_pos h

theorem usizeSub_ok {a b : ℕ} (h : b ≤ a) : usizeSub a b = .ok (a - b) := if_pos h

theorem index_ok {pos : ℕ} (h : pos < data.length) : index data pos = .ok (byteAt data pos) := by
  rw [index, byteAt, List.getD_eq_getElem?_getD, List.getElem?_eq_getElem h]
  rfl

theorem slice_ok {start stop : ℕ} (h : start ≤ stop) (hstop : stop ≤ data.length) :
    slice data start stop = .ok ((data.take stop).drop start) := if_pos ⟨h, hstop⟩

theorem ok_bind {α β : Type} (a : α) (f : α → Checked β) : (Except.ok a >>= f) = f a := rfl

theorem readU16Le_ok {pos : ℕ} (h : pos + 2 ≤ data.length) (hpos : pos + 2 < 2 ^ 64) :
    readU16Le data pos = .ok (u16At data pos) := by
  simp only [readU16Le, index_ok (show pos < data.length by omega), usizeAdd_ok (show pos + 1 < 2 ^ 64 by omega),
    ok_bind, index_ok (show pos + 1 < data.length by omega)]
  rfl

theorem readU32Le_ok {pos : ℕ} (h : pos + 4 ≤ data.length) (hpos : pos + 4 < 2 ^ 64) :
    readU32Le data pos = .ok (u32At data pos) := by
  simp only [readU32Le, index_ok (show pos < data.length by omega), ok_bind,
    usizeAdd_ok (show pos + 1 < 2 ^ 64 by omega), index_ok (show pos + 1 < data.length by omega),
    usizeAdd_ok (show pos + 2 < 2 ^ 64 by omega), index_ok (show pos + 2 < data.length by omega),
    usizeAdd_ok (show pos + 3 < 2 ^ 64 by omega), index_ok (show pos + 3 < data.length by omega)]
  rfl

/-! ## The end of the central directory -/

theorem rfind_ok {p : ℕ → Checked Bool} {q : ℕ → Bool} {n : ℕ} (h : ∀ i < n, p i = .ok (q i)) :
    (rfind p n = .ok none ∧ ∀ i < n, q i = false) ∨
      ∃ i < n, rfind p n = .ok (some i) ∧ q i = true ∧ ∀ j < n, i < j → q j = false := by
  induction n with
  | zero => exact .inl ⟨rfl, fun i hi => absurd hi (Nat.not_lt_zero i)⟩
  | succ n ih =>
    have hstep : rfind p (n + 1) = if q n = true then .ok (some n) else rfind p n := by
      rw [rfind, h n (Nat.lt_succ_self n)]
      rfl
    by_cases hn : q n = true
    · rw [if_pos hn] at hstep
      exact .inr ⟨n, Nat.lt_succ_self n, hstep, hn, fun j hj hnj => by omega⟩
    · rw [if_neg hn] at hstep
      rw [Bool.not_eq_true] at hn
      rcases ih fun i hi => h i (by omega) with ⟨hnone, hall⟩ | ⟨i, hi, hsome, hqi, hlater⟩
      · refine .inl ⟨hstep.trans hnone, fun i hi => ?_⟩
        rcases Nat.lt_succ_iff_lt_or_eq.mp hi with hi | rfl
        · exact hall i hi
        · exact hn
      · refine .inr ⟨i, by omega, hstep.trans hsome, hqi, fun j hj hij => ?_⟩
        rcases Nat.lt_succ_iff_lt_or_eq.mp hj with hj | rfl
        · exact hlater j hj hij
        · exact hn

/-- The signature of the end record, with room for the whole record after it. -/
def eocdAt (data : List UInt8) (i : ℕ) : Bool := decide (i + 22 ≤ data.length) && u32At data i == 0x06054b50

theorem isEocd_ok {i : ℕ} (hi : i ≤ 65535) : isEocd data i = .ok (eocdAt data i) := by
  rw [isEocd, usizeAdd_ok (by omega), ok_bind, eocdAt]
  by_cases hroom : i + 22 ≤ data.length
  · rw [if_pos hroom, readU32Le_ok (by omega) (by omega), decide_eq_true hroom, Bool.true_and]
    rfl
  · rw [if_neg hroom, decide_eq_false hroom]
    rfl

/-- The offsets the search tries. -/
def searched (data : List UInt8) : ℕ := min (data.length - 22) 65535 + 1

theorem findEocd_eq (h : 22 ≤ data.length) : findEocd data = rfind (isEocd data) (searched data) := by
  rw [findEocd, if_neg (by omega), usizeSub_ok h]
  rfl

/-- The search finds the last signature among the offsets it tries. -/
theorem findEocd_ok (data : List UInt8) :
    (findEocd data = .ok none ∧ ∀ i < searched data, eocdAt data i = false) ∨
      ∃ i < searched data, findEocd data = .ok (some i) ∧ eocdAt data i = true ∧
        ∀ j < searched data, i < j → eocdAt data j = false := by
  by_cases h : 22 ≤ data.length
  · rw [findEocd_eq h]
    exact rfind_ok fun i hi => isEocd_ok (by rw [searched] at hi; omega)
  · refine .inl ⟨by rw [findEocd, if_pos (by omega)]; rfl, fun i hi => ?_⟩
    rw [eocdAt, decide_eq_false (by omega)]
    rfl

theorem room_of_findEocd {i : ℕ} (h : findEocd data = .ok (some i)) : i + 22 ≤ data.length ∧ i ≤ 65535 := by
  rcases findEocd_ok data with ⟨hnone, -⟩ | ⟨j, hj, hsome, hat, -⟩
  · exact absurd (hnone.symm.trans h) (by simp)
  · obtain rfl := Option.some.inj (Except.ok.inj (hsome.symm.trans h))
    rw [eocdAt, Bool.and_eq_true, decide_eq_true_iff] at hat
    exact ⟨hat.1, by rw [searched] at hj; omega⟩

/-! ## The central directory -/

def lengthsAt (data : List UInt8) (offset : ℕ) : Lengths :=
  ⟨u16At data (offset + 28), u16At data (offset + 30), u16At data (offset + 32)⟩

/-- Where the record at `offset` ends. -/
def stopAt (data : List UInt8) (offset : ℕ) : ℕ :=
  offset + 46 + (lengthsAt data offset).name + (lengthsAt data offset).extra + (lengthsAt data offset).comment

def nameAt (data : List UInt8) (offset : ℕ) : List Char :=
  fromUtf8 ((data.take (offset + 46 + (lengthsAt data offset).name)).drop (offset + 46))

theorem lengthsAt_lt (data : List UInt8) (offset : ℕ) :
    (lengthsAt data offset).name < 2 ^ 16 ∧ (lengthsAt data offset).extra < 2 ^ 16 ∧
      (lengthsAt data offset).comment < 2 ^ 16 :=
  ⟨u16At_lt .., u16At_lt .., u16At_lt ..⟩

theorem readLengths_ok {offset : ℕ} (h : offset + 46 ≤ data.length) (hoffset : offset < 2 ^ 63) :
    readLengths data offset = .ok (lengthsAt data offset) := by
  have hreach : ∀ k < 46, usizeAdd offset k = .ok (offset + k) := fun k hk => usizeAdd_ok (by omega)
  have hread : ∀ k < 44, readU16Le data (offset + k) = .ok (u16At data (offset + k)) :=
    fun k hk => readU16Le_ok (by omega) (by omega)
  simp only [readLengths, hreach 28 (by omega), hreach 30 (by omega), hreach 32 (by omega), ok_bind,
    hread 28 (by omega), hread 30 (by omega), hread 32 (by omega)]
  rfl

theorem recordEnd_ok {offset : ℕ} (hoffset : offset < 2 ^ 63) :
    recordEnd offset (lengthsAt data offset) = .ok (stopAt data offset) := by
  obtain ⟨hname, hextra, hcomment⟩ := lengthsAt_lt data offset
  simp only [recordEnd, usizeAdd_ok (show offset + 46 < 2 ^ 64 by omega), ok_bind,
    usizeAdd_ok (show offset + 46 + (lengthsAt data offset).name < 2 ^ 64 by omega),
    usizeAdd_ok (show offset + 46 + (lengthsAt data offset).name + (lengthsAt data offset).extra < 2 ^ 64 by omega)]
  exact usizeAdd_ok (by omega)

theorem readName_ok {offset : ℕ} (h : stopAt data offset ≤ data.length) (hoffset : offset < 2 ^ 63) :
    readName data offset (lengthsAt data offset) = .ok (nameAt data offset) := by
  obtain ⟨hname, hextra, hcomment⟩ := lengthsAt_lt data offset
  rw [stopAt] at h
  simp only [readName, usizeAdd_ok (show offset + 46 < 2 ^ 64 by omega), ok_bind,
    usizeAdd_ok (show offset + 46 + (lengthsAt data offset).name < 2 ^ 64 by omega),
    slice_ok (show offset + 46 ≤ offset + 46 + (lengthsAt data offset).name by omega)
      (show offset + 46 + (lengthsAt data offset).name ≤ data.length by omega)]
  rfl

/-- A record is there: room for its fields and its signature, and room for its texts. -/
def Recorded (data : List UInt8) (offset : ℕ) : Prop :=
  offset + 46 ≤ data.length ∧ u32At data offset = 0x02014b50 ∧ stopAt data offset ≤ data.length

instance (data : List UInt8) (offset : ℕ) : Decidable (Recorded data offset) := instDecidableAnd

/-- The offsets of the central directory, `n` records at most. -/
def records (data : List UInt8) : ℕ → ℕ → List ℕ
  | 0, _ => []
  | n + 1, offset => if Recorded data offset then offset :: records data n (stopAt data offset) else []

theorem length_records_le (n offset : ℕ) : (records data n offset).length ≤ n := by
  induction n generalizing offset with
  | zero => exact Nat.le_refl 0
  | succ n ih =>
    rw [records]
    split
    · exact Nat.succ_le_succ (ih _)
    · exact Nat.zero_le _

variable (hdata : data.length < 2 ^ 63)
include hdata

theorem stopAt_lt {offset : ℕ} (h : Recorded data offset) : stopAt data offset < 2 ^ 63 :=
  Nat.lt_of_le_of_lt h.2.2 hdata

theorem listEntries_ok {n offset : ℕ} {entries : List (List Char)} (hoffset : offset < 2 ^ 63) :
    listEntries data n offset entries = .ok (entries ++ (records data n offset).map (nameAt data)) := by
  induction n generalizing offset entries with
  | zero => rw [listEntries, records, List.map_nil, List.append_nil]
  | succ n ih =>
    rw [listEntries, records, usizeAdd_ok (by omega), ok_bind]
    by_cases hroom : offset + 46 ≤ data.length
    · rw [if_neg (by omega), readU32Le_ok (by omega) (by omega), ok_bind]
      by_cases hsig : u32At data offset = 0x02014b50
      · rw [if_neg (fun h => h hsig), readLengths_ok hroom hoffset, ok_bind, recordEnd_ok hoffset, ok_bind]
        by_cases hstop : stopAt data offset ≤ data.length
        · have hrecorded : Recorded data offset := ⟨hroom, hsig, hstop⟩
          rw [if_neg (by omega), readName_ok hstop hoffset, ok_bind, ok_bind, if_pos hrecorded,
            ih (stopAt_lt hdata hrecorded), List.map_cons, List.append_assoc]
          rfl
        · rw [if_pos (by omega), if_neg (fun h => hstop h.2.2), List.map_nil, List.append_nil]
          rfl
      · rw [if_pos hsig, if_neg (fun h => hsig h.2.1), List.map_nil, List.append_nil]
        rfl
    · rw [if_pos (by omega), if_neg (fun h => hroom h.1), List.map_nil, List.append_nil]
      rfl

/-- What extraction takes from the record at `offset`. -/
def compressedAt (data : List UInt8) (offset : ℕ) : Option (List UInt8) :=
  let name := nameAt data offset
  let localOffset := u32At data (offset + 42)
  let dataStart := localOffset + 30 + u16At data (localOffset + 26) + u16At data (localOffset + 28)
  let dataStop := dataStart + u32At data (offset + 20)
  if name = [] ∨ name.getLast? = some '/' then none
  else if data.length < localOffset + 30 + (lengthsAt data offset).name then none
  else if data.length < dataStop then none
  else some ((data.take dataStop).drop dataStart)

theorem readCompressed_ok {offset : ℕ} (h : offset + 46 ≤ data.length) :
    readCompressed data offset (u32At data (offset + 20)) (lengthsAt data offset).name (nameAt data offset) =
      .ok (compressedAt data offset) := by
  obtain ⟨hname, -, -⟩ := lengthsAt_lt data offset
  have hlocal := u32At_lt data (offset + 42)
  have hsize := u32At_lt data (offset + 20)
  have hlocalName := u16At_lt data (u32At data (offset + 42) + 26)
  have hlocalExtra := u16At_lt data (u32At data (offset + 42) + 28)
  rw [readCompressed, usizeAdd_ok (by omega), ok_bind, readU32Le_ok (by omega) (by omega), ok_bind, compressedAt]
  by_cases hfile : nameAt data offset = [] ∨ (nameAt data offset).getLast? = some '/'
  · rw [if_pos hfile, if_pos hfile]
    rfl
  · rw [if_neg hfile, if_neg hfile, usizeAdd_ok (by omega), ok_bind, usizeAdd_ok (by omega), ok_bind]
    by_cases hheader : data.length < u32At data (offset + 42) + 30 + (lengthsAt data offset).name
    · rw [if_pos hheader, if_pos hheader]
      rfl
    · rw [if_neg hheader, if_neg hheader, usizeAdd_ok (by omega), ok_bind, readU16Le_ok (by omega) (by omega),
        ok_bind, usizeAdd_ok (by omega), ok_bind, readU16Le_ok (by omega) (by omega), ok_bind, ok_bind,
        usizeAdd_ok (by omega), ok_bind, usizeAdd_ok (by omega), ok_bind, usizeAdd_ok (by omega), ok_bind]
      by_cases hdataStop : data.length < u32At data (offset + 42) + 30 + u16At data (u32At data (offset + 42) + 26) +
          u16At data (u32At data (offset + 42) + 28) + u32At data (offset + 20)
      · rw [if_pos hdataStop, if_pos hdataStop]
        rfl
      · rw [if_neg hdataStop, if_neg hdataStop, slice_ok (Nat.le_add_right ..) (Nat.le_of_not_lt hdataStop)]
        rfl

/-- The extraction of the records at the given offsets. -/
def storeRecords (data : List UInt8) (o : Outside) (dest : Path) : List ℕ → ℕ → List Effect → Extraction
  | [], count, log => (log, .ok count)
  | offset :: rest, count, log =>
    match compressedAt data offset with
    | none => storeRecords data o dest rest count log
    | some compressed =>
      match decompress o.inflate (u16At data (offset + 10)) compressed with
      | .error e => (log, .error e)
      | .ok bytes =>
        match store o dest (nameAt data offset) bytes log with
        | (log, .error e) => (log, .error e)
        | (log, .ok ()) => storeRecords data o dest rest (count + 1) log

variable (o : Outside) (dest : Path)

theorem extractEntries_ok {n offset count : ℕ} {log : List Effect} (hoffset : offset < 2 ^ 63)
    (hcount : count + n < 2 ^ 64) :
    extractEntries data o dest n offset count log =
      .ok (storeRecords data o dest (records data n offset) count log) := by
  induction n generalizing offset count log with
  | zero => rfl
  | succ n ih =>
    rw [extractEntries, records, usizeAdd_ok (by omega), ok_bind]
    by_cases hroom : offset + 46 ≤ data.length
    · rw [if_neg (by omega), readU32Le_ok (by omega) (by omega), ok_bind]
      by_cases hsig : u32At data offset = 0x02014b50
      · rw [if_neg (fun h => h hsig), usizeAdd_ok (by omega), ok_bind, readU16Le_ok (by omega) (by omega), ok_bind,
          usizeAdd_ok (by omega), ok_bind, readU32Le_ok (by omega) (by omega), ok_bind, usizeAdd_ok (by omega),
          ok_bind, readU32Le_ok (by omega) (by omega), ok_bind, readLengths_ok hroom hoffset, ok_bind,
          recordEnd_ok hoffset, ok_bind]
        by_cases hstop : stopAt data offset ≤ data.length
        · have hrecorded : Recorded data offset := ⟨hroom, hsig, hstop⟩
          rw [if_neg (by omega), readName_ok hstop hoffset, ok_bind, readCompressed_ok hdata hroom, ok_bind,
            if_pos hrecorded, storeRecords]
          cases compressedAt data offset with
          | none => exact ih (stopAt_lt hdata hrecorded) (by omega)
          | some compressed =>
            cases hbytes : decompress o.inflate (u16At data (offset + 10)) compressed with
            | error e => simp only [hbytes]; rfl
            | ok bytes =>
              simp only [hbytes]
              cases hstore : store o dest (nameAt data offset) bytes log with
              | mk log' r =>
                cases r with
                | error e => rfl
                | ok u =>
                  simp only [usizeAdd_ok (show count + 1 < 2 ^ 64 by omega), ok_bind]
                  exact ih (stopAt_lt hdata hrecorded) (by omega)
        · rw [if_pos (by omega), if_neg (fun h => hstop h.2.2)]
          rfl
      · rw [if_pos hsig, if_neg (fun h => hsig h.2.1)]
        rfl
    · rw [if_pos (by omega), if_neg (fun h => hroom h.1)]
      rfl

/-- The records of the directory that the end record at `eocdPos` points to. -/
def directory (data : List UInt8) (eocdPos : ℕ) : List ℕ :=
  records data (u16At data (eocdPos + 10)) (u32At data (eocdPos + 16))

theorem listZipEntries_ok {eocdPos : ℕ} (h : findEocd data = .ok (some eocdPos)) :
    listZipEntries data = .ok (.ok ((directory data eocdPos).map (nameAt data))) := by
  obtain ⟨hroom, hpos⟩ := room_of_findEocd h
  have hoffset := u32At_lt data (eocdPos + 16)
  rw [listZipEntries, h, ok_bind]
  dsimp only
  rw [usizeAdd_ok (by omega), ok_bind, readU16Le_ok (by omega) (by omega), ok_bind, usizeAdd_ok (by omega), ok_bind,
    readU32Le_ok (by omega) (by omega), ok_bind, listEntries_ok hdata (by omega), ok_bind, List.nil_append]
  rfl

theorem extractZipBytes_ok {eocdPos : ℕ} (h : findEocd data = .ok (some eocdPos)) :
    extractZipBytes data o dest = .ok (storeRecords data o dest (directory data eocdPos) 0 []) := by
  obtain ⟨hroom, hpos⟩ := room_of_findEocd h
  have hoffset := u32At_lt data (eocdPos + 16)
  have hentries := u16At_lt data (eocdPos + 10)
  rw [extractZipBytes, h, ok_bind]
  dsimp only
  rw [usizeAdd_ok (by omega), ok_bind, readU16Le_ok (by omega) (by omega), ok_bind, usizeAdd_ok (by omega), ok_bind,
    readU32Le_ok (by omega) (by omega), ok_bind, extractEntries_ok hdata o dest (by omega) (by omega)]
  rfl

omit hdata

theorem extractZipBytes_none (h : findEocd data = .ok none) :
    extractZipBytes data o dest =
      .ok ([], .error "not a valid zip archive: end of central directory not found") := by
  rw [extractZipBytes, h]
  rfl

/-- What one entry asks of the file system. -/
inductive Asks (dest : Path) (name : List Char) : Effect → Prop
  | parent {p : Path} (h : (dest.join (Path.components name)).parent = some p) : Asks dest name (.createDirAll p)
  | file (bytes : List UInt8) : Asks dest name (.write (dest.join (Path.components name)) bytes)

/-- Storing an entry adds the request for its parent and, unless that is refused, the one for the file. -/
theorem store_asks (name : List Char) (bytes : List UInt8) (log : List Effect) :
    ∃ asked, (store o dest name bytes log).1 = log ++ asked ∧ ∀ e ∈ asked, Asks dest name e := by
  rw [store]
  dsimp only
  cases hparent : (dest.join (Path.components name)).parent with
  | none => exact ⟨[.write _ bytes], rfl, fun e he => List.mem_singleton.mp he ▸ .file bytes⟩
  | some p =>
    dsimp only
    cases o.refuses log (.createDirAll p) with
    | some e => exact ⟨[.createDirAll p], rfl, fun e he => List.mem_singleton.mp he ▸ .parent hparent⟩
    | none =>
      refine ⟨[.createDirAll p, .write _ bytes], List.append_assoc .., fun e he => ?_⟩
      rcases List.mem_cons.mp he with rfl | he
      · exact .parent hparent
      · exact List.mem_singleton.mp he ▸ .file bytes

/-- The names of the entries that are stored when nothing is refused: up to the first that cannot be
decompressed, those with bytes in the archive. -/
def storedNames (data : List UInt8) (inflate : List UInt8 → Except String (List UInt8)) :
    List ℕ → List (List Char)
  | [] => []
  | offset :: rest =>
    match compressedAt data offset with
    | none => storedNames data inflate rest
    | some compressed =>
      match decompress inflate (u16At data (offset + 10)) compressed with
      | .error _ => []
      | .ok _ => nameAt data offset :: storedNames data inflate rest

/-- Nothing but stored entries is asked for. -/
theorem storeRecords_stored (offsets : List ℕ) (count : ℕ) (log : List Effect) {e : Effect}
    (h : e ∈ (storeRecords data o dest offsets count log).1) :
    e ∈ log ∨ ∃ name ∈ storedNames data o.inflate offsets, Asks dest name e := by
  induction offsets generalizing count log with
  | nil => exact .inl h
  | cons offset rest ih =>
    rw [storeRecords] at h
    rw [storedNames]
    cases hcompressed : compressedAt data offset with
    | none =>
      rw [hcompressed] at h
      exact ih _ _ h
    | some compressed =>
      rw [hcompressed] at h
      cases hbytes : decompress o.inflate (u16At data (offset + 10)) compressed with
      | error m =>
        simp only [hbytes] at h
        exact .inl h
      | ok bytes =>
        simp only [hbytes] at h ⊢
        obtain ⟨asked, hlog, hasked⟩ := store_asks o dest (nameAt data offset) bytes log
        have hstored : e ∈ log ++ asked →
            e ∈ log ∨ ∃ name ∈ nameAt data offset :: storedNames data o.inflate rest, Asks dest name e :=
          fun h => (List.mem_append.mp h).imp_right fun h => ⟨_, List.mem_cons_self, hasked e h⟩
        cases hstore : store o dest (nameAt data offset) bytes log with
        | mk log' r =>
          rw [hstore] at hlog
          obtain rfl : log' = log ++ asked := hlog
          cases r with
          | error m =>
            simp only [hstore] at h
            exact hstored h
          | ok u =>
            simp only [hstore] at h
            exact (ih _ _ h).elim hstored fun ⟨name, hmem, hasks⟩ => .inr ⟨name, List.mem_cons_of_mem _ hmem, hasks⟩

theorem storedNames_subset (inflate : List UInt8 → Except String (List UInt8)) (offsets : List ℕ) :
    storedNames data inflate offsets ⊆ offsets.map (nameAt data) := by
  induction offsets with
  | nil => exact fun _ h => h
  | cons offset rest ih =>
    have hrest : storedNames data inflate rest ⊆ (offset :: rest).map (nameAt data) := fun _ h =>
      List.mem_cons_of_mem _ (ih h)
    rw [storedNames]
    split
    · exact hrest
    · split
      · exact List.nil_subset _
      · exact List.cons_subset.mpr ⟨List.mem_cons_self, hrest⟩

/-- No function of the reader faults, its loops end after at most as many entries as two bytes count, and
extraction writes only what the listing names. -/
theorem reader_in_bounds (file : FileBytes) :
    (∃ r, findEocd file.bytes = .ok r) ∧
      (∃ r, listZipEntries file.bytes = .ok r ∧ ∀ names, r = .ok names → names.length < 2 ^ 16) ∧
      ∃ x, extractZipBytes file.bytes o dest = .ok x ∧ ∀ path bytes, .write path bytes ∈ x.1 →
        ∃ names, listZipEntries file.bytes = .ok (.ok names) ∧ ∃ name ∈ names, path = dest.join (Path.components name) := by
  rcases findEocd_ok file.bytes with ⟨hnone, -⟩ | ⟨eocdPos, -, hsome, -⟩
  · have hlist : listZipEntries file.bytes = .ok (.error "not a valid zip archive") := by
      rw [listZipEntries, hnone]
      rfl
    refine ⟨⟨none, hnone⟩, ⟨_, hlist, fun names h => absurd h (by simp)⟩, _, extractZipBytes_none o dest hnone, ?_⟩
    intro path bytes h
    exact absurd h List.not_mem_nil
  · have hlist := listZipEntries_ok file.bounded hsome
    have hcount := u16At_lt file.bytes (eocdPos + 10)
    refine ⟨⟨some eocdPos, hsome⟩, ⟨_, hlist, ?_⟩, _, extractZipBytes_ok file.bounded o dest hsome, ?_⟩
    · rintro _ ⟨⟩
      rw [List.length_map]
      exact Nat.lt_of_le_of_lt (length_records_le _ _) hcount
    · intro path bytes h
      refine ⟨_, hlist, ?_⟩
      rcases storeRecords_stored o dest _ _ _ h with h | ⟨name, hmem, hasks⟩
      · exact absurd h List.not_mem_nil
      · cases hasks
        exact ⟨name, storedNames_subset o.inflate _ hmem, rfl⟩

end Neutron.Archive
