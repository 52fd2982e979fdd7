import Mathlib.Algebra.Group.Nat.Defs
import Mathlib.Data.List.Basic
import Mathlib.Tactic.Common
import Neutron.PathComponents
import Neutron.Utf8Bytes

/-!
# The zip reader

`archive.extract_zip` and `archive.list_zip` over the bytes of a file. Offsets are `usize` values of a
64-bit target: an access outside the data and a sum that does not fit are faults. Decompression and the
file system are outside; what the reader asks of the file system is logged, also when it is refused.
-/

namespace Neutron

inductive Fault where
  | outOfBounds | overflow
  deriving DecidableEq

abbrev Checked (α : Type) := Except Fault α

def usizeAdd (a b : ℕ) : Checked ℕ := if a + b < 2 ^ 64 then .ok (a + b) else .error .overflow

def usizeSub (a b : ℕ) : Checked ℕ := if b ≤ a then .ok (a - b) else .error .overflow

/-- The bytes of a file in memory. The language bounds the length of a slice. -/
structure FileBytes where
  bytes : List UInt8
  bounded : bytes.length < 2 ^ 63

namespace Archive

variable (data : List UInt8)

def index (pos : ℕ) : Checked ℕ :=
  match data[pos]? with
  | some b => .ok b.toNat
  | none => .error .outOfBounds

/-- `&data[start..stop]` -/
def slice (start stop : ℕ) : Checked (List UInt8) :=
  if start ≤ stop ∧ stop ≤ data.length then .ok ((data.take stop).drop start) else .error .outOfBounds

def readU16Le (pos : ℕ) : Checked ℕ := do
  let b0 ← index data pos
  let b1 ← index data (← usizeAdd pos 1)
  return b0 + 256 * b1

def readU32Le (pos : ℕ) : Checked ℕ := do
  let b0 ← index data pos
  let b1 ← index data (← usizeAdd pos 1)
  let b2 ← index data (← usizeAdd pos 2)
  let b3 ← index data (← usizeAdd pos 3)
  return b0 + 256 * b1 + 65536 * b2 + 16777216 * b3

/-- `(0..n).rev().find(p)` -/
def rfind (p : ℕ → Checked Bool) : ℕ → Checked (Option ℕ)
  | 0 => .ok none
  | n + 1 => do
    if ← p n then
      return some n
    rfind p n

def isEocd (i : ℕ) : Checked Bool := do
  if (← usizeAdd i 22) ≤ data.length then
    return (← readU32Le data i) == 0x06054b50
  return false

def findEocd : Checked (Option ℕ) := do
  if data.length < 22 then
    return none
  let maxCommentLen := min (← usizeSub data.length 22) 65535
  rfind (isEocd data) (maxCommentLen + 1)

/-- `std::str::from_utf8(..).unwrap_or("")` -/
def fromUtf8 (bytes : List UInt8) : List Char := (fromUtf8? bytes).getD []

/-- The lengths of a central directory record: name, extra field, comment. -/
structure Lengths where
  name : ℕ
  extra : ℕ
  comment : ℕ

def readLengths (offset : ℕ) : Checked Lengths := do
  let name ← readU16Le data (← usizeAdd offset 28)
  let extra ← readU16Le data (← usizeAdd offset 30)
  let comment ← readU16Le data (← usizeAdd offset 32)
  return ⟨name, extra, comment⟩

/-- `offset + 46 + name_len + extra_len + comment_len` -/
def recordEnd (offset : ℕ) (lens : Lengths) : Checked ℕ := do
  let fixed ← usizeAdd offset 46
  let name ← usizeAdd fixed lens.name
  let extra ← usizeAdd name lens.extra
  usizeAdd extra lens.comment

def readName (offset : ℕ) (lens : Lengths) : Checked (List Char) := do
  let start ← usizeAdd offset 46
  return fromUtf8 (← slice data start (← usizeAdd start lens.name))

/-- The entry loop of `list_zip_entries`, `n` entries from its end. -/
def listEntries : ℕ → ℕ → List (List Char) → Checked (List (List Char))
  | 0, _, entries => .ok entries
  | n + 1, offset, entries => do
    if data.length < (← usizeAdd offset 46) then
      return entries
    if (← readU32Le data offset) ≠ 0x02014b50 then
      return entries
    let lens ← readLengths data offset
    if data.length < (← recordEnd offset lens) then
      return entries
    let name ← readName data offset lens
    listEntries n (← recordEnd offset lens) (entries ++ [name])

def listZipEntries : Checked (Except String (List (List Char))) := do
  match ← findEocd data with
  | none => return .error "not a valid zip archive"
  | some eocdPos =>
    let numEntries ← readU16Le data (← usizeAdd eocdPos 10)
    let cdOffset ← readU32Le data (← usizeAdd eocdPos 16)
    return .ok (← listEntries data numEntries cdOffset [])

/-- What the reader asks of the file system. -/
inductive Effect where
  | createDirAll (path : Path)
  | write (path : Path) (bytes : List UInt8)

def Effect.path : Effect → Path
  | .createDirAll p => p
  | .write p _ => p

/-- The code outside: the deflate decoder, and a file system that may refuse any request. -/
structure Outside where
  inflate : List UInt8 → Except String (List UInt8)
  refuses : List Effect → Effect → Option String

/-- The effects of an extraction and what it returns. -/
abbrev Extraction := List Effect × Except String ℕ

section
variable (o : Outside)

/-- The compressed bytes of an entry, when its name is a file's and they lie inside the data. -/
def readCompressed (offset compSize nameLen : ℕ) (name : List Char) : Checked (Option (List UInt8)) := do
  let localOffset ← readU32Le data (← usizeAdd offset 42)
  if name = [] ∨ name.getLast? = some '/' then
    return none
  if data.length < (← usizeAdd (← usizeAdd localOffset 30) nameLen) then
    return none
  let localNameLen ← readU16Le data (← usizeAdd localOffset 26)
  let localExtraLen ← readU16Le data (← usizeAdd localOffset 28)
  let dataStart ← usizeAdd (← usizeAdd (← usizeAdd localOffset 30) localNameLen) localExtraLen
  let dataStop ← usizeAdd dataStart compSize
  if data.length < dataStop then
    return none
  return some (← slice data dataStart dataStop)

def decompress (inflate : List UInt8 → Except String (List UInt8)) (method : ℕ) (compressed : List UInt8) :
    Except String (List UInt8) :=
  if method = 0 then .ok compressed
  else if method = 8 then
    match inflate compressed with
    | .ok bytes => .ok bytes
    | .error e => .error ("decompress failed: " ++ e)
  else .error ("unsupported compression method " ++ toString method)

/-- Creates the parent directory and writes the file. -/
def store (dest : Path) (name : List Char) (bytes : List UInt8) (log : List Effect) :
    List Effect × Except String Unit :=
  let outPath := dest.join (Path.components name)
  let write (log : List Effect) : List Effect × Except String Unit :=
    (log ++ [.write outPath bytes],
      match o.refuses log (.write outPath bytes) with
      | some e => .error ("write file: " ++ e)
      | none => .ok ())
  match outPath.parent with
  | none => write log
  | some parent =>
    match o.refuses log (.createDirAll parent) with
    | some e => (log ++ [.createDirAll parent], .error ("create dir: " ++ e))
    | none => write (log ++ [.createDirAll parent])

/-- The entry loop of `extract_zip_bytes`, `n` entries from its end. -/
def extractEntries (dest : Path) : ℕ → ℕ → ℕ → List Effect → Checked Extraction
  | 0, _, count, log => .ok (log, .ok count)
  | n + 1, offset, count, log => do
    if data.length < (← usizeAdd offset 46) then
      return (log, .ok count)
    if (← readU32Le data offset) ≠ 0x02014b50 then
      return (log, .ok count)
    let compMethod ← readU16Le data (← usizeAdd offset 10)
    let compSize ← readU32Le data (← usizeAdd offset 20)
    -- The uncompressed size only reserves capacity.
    let _uncompSize ← readU32Le data (← usizeAdd offset 24)
    let lens ← readLengths data offset
    if data.length < (← recordEnd offset lens) then
      return (log, .ok count)
    let name ← readName data offset lens
    match ← readCompressed data offset compSize lens.name name with
    | none => extractEntries dest n (← recordEnd offset lens) count log
    | some compressed =>
      match decompress o.inflate compMethod compressed with
      | .error e => return (log, .error e)
      | .ok bytes =>
        match store o dest name bytes log with
        | (log, .error e) => return (log, .error e)
        | (log, .ok ()) => extractEntries dest n (← recordEnd offset lens) (← usizeAdd count 1) log

def extractZipBytes (dest : Path) : Checked Extraction := do
  match ← findEocd data with
  | none => return ([], .error "not a valid zip archive: end of central directory not found")
  | some eocdPos =>
    let numEntries ← readU16Le data (← usizeAdd eocdPos 10)
    let cdOffset ← readU32Le data (← usizeAdd eocdPos 16)
    extractEntries data o dest numEntries cdOffset 0 []

end
end Archive
end Neutron
