import FrozenHeap.RecordTable.Layout

/-!
Record tables as they are read back. The bytes may come from anywhere: a table is made of them only
when every offset, name and kind in them is sound, and from then on no byte is read again.
-/
namespace FrozenHeap

/-- Rows in buckets; `starts` holds the index of the first row of each bucket and the row count. -/
structure RecordTable where
  starts : Array Nat
  rows : Array Row
  deriving DecidableEq, Repr

namespace RecordTable

open TableLayout

/-- The number of `width` bytes at an offset. -/
def number? (block : Array UInt8) (width offset : Nat) : Option Nat :=
  if offset + width ≤ block.size then
    some (LittleEndian.decode (block.extract offset (offset + width)).toList)
  else none

/-- The name at an offset, behind its length. -/
def name? (block : Array UInt8) (offset : Nat) : Option String := do
  let length ← number? block halfBytes offset
  let first := offset + halfBytes
  if first + length ≤ block.size then ofUtf8? (block.extract first (first + length)).toList
  else none

def require (part : TablePart) : Option α → Except TablePart α
  | some value => .ok value
  | none => .error part

/-- Read the bucket starts from some offset on. They never decrease, and end at the row count. -/
def readStarts (block : Array UInt8) (rowCount : Nat) :
    (count offset previous : Nat) → Array Nat → Except TablePart (Array Nat)
  | 0, _, previous, starts => if previous = rowCount then .ok starts else .error .bucketCover
  | count + 1, offset, previous, starts =>
    match number? block halfBytes offset with
    | none => .error .bucketArray
    | some start =>
      if start < previous ∨ rowCount < start then .error .bucketStarts
      else readStarts block rowCount count (offset + halfBytes) start (starts.push start)

/-- Does the bucket of a hash hold the row of this index? -/
def inBucket (starts : Array Nat) (hash index : Nat) : Bool :=
  let bucket := hash % (starts.size - 1)
  match starts[bucket]?, starts[bucket + 1]? with
  | some first, some last => decide (first ≤ index ∧ index < last)
  | _, _ => false

def readEntry (block : Array UInt8) (offset : Nat) : Except TablePart Entry := do
  let kind ← require .field (number? block halfBytes (offset + halfBytes))
  let kind ← require .entryKind (EntryKind.ofCode? kind)
  let field ← require .field (number? block halfBytes offset)
  let value ← require .field (number? block 8 (offset + rowBytes))
  return ⟨UInt32.ofNat field, kind, UInt64.ofNat value⟩

def readClass (block : Array UInt8) (offset : Nat) : Except TablePart String := do
  let name ← require .classRef (number? block halfBytes offset)
  require .className (name? block name)

/-- Read the record at an offset, whose name has this hash. -/
def readRecord (block : Array UInt8) (hash offset : Nat) : Except TablePart Record := do
  let name ← require .recordName (number? block halfBytes offset >>= name? block)
  if (hashName name).toNat ≠ hash then throw .recordHash
  let entries ← require .fieldCount (number? block halfBytes (offset + 8))
  let classes ← require .classCount (number? block halfBytes (offset + 12))
  if block.size < offset + recordSize entries classes then throw .recordOutOfBounds
  let flags ← require .recordOutOfBounds (number? block halfBytes (offset + 4))
  let first := offset + recordHeaderBytes
  let behind := first + entryBytes * entries
  return {
    className := name
    entries := ← (List.range entries).mapM fun index => readEntry block (first + entryBytes * index)
    classes := ← (List.range classes).mapM fun index => readClass block (behind + halfBytes * index)
    isPartial := flags % 2 == 1 }

def readRow (block : Array UInt8) (starts : Array Nat) (index : Nat) : Except TablePart Row := do
  let offset := rowsStart (starts.size - 1) + rowBytes * index
  let hash ← require .entry (number? block halfBytes offset)
  let place ← require .entry (number? block halfBytes (offset + halfBytes))
  if inBucket starts hash index then
    return ⟨UInt32.ofNat hash, ← readRecord block hash place⟩
  else throw .bucketOfEntry

def readBody (block : Array UInt8) (buckets rowCount : Nat) : Except TablePart RecordTable := do
  if block.size < rowsStart buckets + rowBytes * rowCount then throw .entriesOutOfBounds
  let starts ← readStarts block rowCount (buckets + 1) headerBytes 0 #[]
  let rows ← (List.range rowCount).mapM (readRow block starts)
  return ⟨starts, rows.toArray⟩

def ofBytes (block : Array UInt8) : Except Malformed RecordTable := do
  if block.size < headerBytes ∨ (block.extract 0 4).toList ≠ magic then throw .tableMagic
  let some found := number? block 2 4 | throw .tableTruncated
  if found ≠ version then throw (.tableVersion found)
  let some buckets := number? block halfBytes 8 | throw .tableTruncated
  let some rowCount := number? block halfBytes 12 | throw .tableTruncated
  if buckets = 0 then throw .tableBuckets
  match readBody block buckets rowCount with
  | .ok table => return table
  | .error part => throw (.tableCorrupt part)

def buckets (table : RecordTable) : Nat := table.starts.size - 1

def records (table : RecordTable) : List Record := table.rows.toList.map (·.record)

/-- The record of a class: its bucket alone is searched. -/
def find? (table : RecordTable) (name : String) : Option Record := do
  let hash := hashName name
  let bucket := hash.toNat % table.buckets
  let row ← (table.rows.extract (← table.starts[bucket]?) (← table.starts[bucket + 1]?)).find?
    fun row => row.hash == hash && row.record.className == name
  return row.record

end RecordTable
end FrozenHeap
