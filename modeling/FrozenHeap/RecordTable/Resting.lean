import FrozenHeap.Breach
import FrozenHeap.RecordTable

/-!
Record tables at rest. The bytes of a table are checked once and then kept as they are: a search and
each record that it finds read them again, with the arithmetic of machine words and without a way to
fail. Where there is nothing to read, a `Fallback` stands in.
-/
namespace FrozenHeap

/-- A sum or a product, no part of which is larger than the whole; it must fit a machine word. -/
def sized (n : Nat) : Run Nat := if n < UInt64.size then .ok n else .error .overflow

def remainder (n divisor : Nat) : Run Nat :=
  if divisor = 0 then .error .precondition else .ok (n % divisor)

/-- The items from one index up to another, which must exist. -/
def slice (items : Array α) (first last : Nat) : Run (List α) :=
  if first ≤ last ∧ last ≤ items.size then .ok (items.extract first last).toList
  else .error .outOfRange

/-- What stands in for a number, a kind or a text that cannot be read. -/
structure Fallback where
  number : Nat
  kind : EntryKind
  text : String

def Fallback.usual : Fallback := ⟨0, .primitive, ""⟩

/-- A computation that may find something malformed. -/
abbrev Check (ε α : Type) := ExceptT ε Run α

/-- The bytes at an offset, behind their length. -/
def RecordTable.text? (block : Array UInt8) (offset : Nat) : Option (List UInt8) := do
  let length ← number? block TableLayout.halfBytes offset
  let first := offset + TableLayout.halfBytes
  if first + length ≤ block.size then some (block.extract first (first + length)).toList else none

open TableLayout RecordTable

/-- A record in the bytes of a table. -/
structure RestingRecord where
  block : Array UInt8
  place : Nat
  deriving DecidableEq

namespace RestingRecord

/-- The number at a distance from the start of the record. -/
def number? (record : RestingRecord) (distance : Nat) : Run (Option Nat) := do
  return RecordTable.number? record.block halfBytes (← sized (record.place + distance))

def numberAt (fallback : Fallback) (record : RestingRecord) (distance : Nat) : Run Nat := do
  return (← record.number? distance).getD fallback.number

/-- The bytes of the name of the record's class. -/
def nameBytes? (record : RestingRecord) : Option (List UInt8) := do
  text? record.block (← RecordTable.number? record.block halfBytes record.place)

def className? (record : RestingRecord) : Option String := record.nameBytes? >>= ofUtf8?

def className (fallback : Fallback) (record : RestingRecord) : String :=
  record.className?.getD fallback.text

def isPartial (fallback : Fallback) (record : RestingRecord) : Run Bool := do
  return (← record.numberAt fallback 4) % 2 == 1

def entryCount (fallback : Fallback) (record : RestingRecord) : Run Nat :=
    record.numberAt fallback 8

def classCount (fallback : Fallback) (record : RestingRecord) : Run Nat :=
  record.numberAt fallback 12

def entryPlace (record : RestingRecord) (index : Nat) : Run Nat :=
  sized (record.place + recordHeaderBytes + entryBytes * index)

def classPlace (fallback : Fallback) (record : RestingRecord) (index : Nat) : Run Nat := do
  let behind ← record.entryPlace (← record.entryCount fallback)
  sized (behind + halfBytes * index)

def entry (fallback : Fallback) (record : RestingRecord) (index : Nat) : Run Entry := do
  let first ← record.entryPlace index
  let offset := RecordTable.number? record.block halfBytes first
  let kind := RecordTable.number? record.block halfBytes (← sized (first + halfBytes))
  let value := RecordTable.number? record.block 8 (← sized (first + rowBytes))
  return ⟨UInt32.ofNat (offset.getD fallback.number),
    (kind >>= EntryKind.ofCode?).getD fallback.kind, UInt64.ofNat (value.getD fallback.number)⟩

def entries (fallback : Fallback) (record : RestingRecord) : Run (List Entry) := do
  (List.range (← record.entryCount fallback)).mapM (record.entry fallback)

/-- The name of a class that must be resolved before the record is used. -/
def listedClass (fallback : Fallback) (record : RestingRecord) (index : Nat) : Run String := do
  let place ← record.classPlace fallback index
  return (RecordTable.number? record.block halfBytes place >>= text? record.block >>= ofUtf8?).getD
    fallback.text

def classes (fallback : Fallback) (record : RestingRecord) : Run (List String) := do
  (List.range (← record.classCount fallback)).mapM (record.listedClass fallback)

def toRecord (fallback : Fallback) (record : RestingRecord) : Run Record := do
  return {
    className := record.className fallback
    entries := ← record.entries fallback
    classes := ← record.classes fallback
    isPartial := ← record.isPartial fallback }

/-- The entry of this index must have a kind. -/
def checkEntry (record : RestingRecord) (index : Nat) : Check TablePart Unit := do
  let place ← sized ((← record.entryPlace index) + halfBytes)
  match RecordTable.number? record.block halfBytes place with
  | none => throw .field
  | some code => if (EntryKind.ofCode? code).isNone then throw .entryKind

/-- The class of this index must have a name. -/
def checkClass (fallback : Fallback) (record : RestingRecord) (index : Nat) :
    Check TablePart Unit := do
  let place ← record.classPlace fallback index
  match RecordTable.number? record.block halfBytes place with
  | none => throw .classRef
  | some offset => if (text? record.block offset >>= ofUtf8?).isNone then throw .className

/-- The record must lie within the bytes, and its name must have this hash. -/
def check (fallback : Fallback) (record : RestingRecord) (hash : Nat) : Check TablePart Unit := do
  match record.className? with
  | none => throw .recordName
  | some name =>
    if (hashName name).toNat ≠ hash then throw .recordHash
    match (← record.number? 8 : Option Nat) with
    | none => throw .fieldCount
    | some entries =>
      match (← record.number? 12 : Option Nat) with
      | none => throw .classCount
      | some classes =>
        if record.block.size < (← sized (record.place + recordSize entries classes)) then
          throw .recordOutOfBounds
        (List.range entries).forM record.checkEntry
        (List.range classes).forM (record.checkClass fallback)

end RestingRecord

/-- The bytes of a table, with what its header says. -/
structure RestingTable where
  block : Array UInt8
  buckets : Nat
  rowCount : Nat
  deriving DecidableEq

namespace RestingTable

def start? (table : RestingTable) (bucket : Nat) : Run (Option Nat) := do
  return number? table.block halfBytes (← sized (headerBytes + halfBytes * bucket))

/-- From which row up to which other the bucket of a hash reaches. -/
def rangeOf (fallback : Fallback) (table : RestingTable) (hash : Nat) : Run (Nat × Nat) := do
  let bucket ← remainder hash table.buckets
  return ((← table.start? bucket).getD fallback.number,
    (← table.start? (← sized (bucket + 1))).getD fallback.number)

/-- The hash and the place of the record of a row. -/
def row? (table : RestingTable) (index : Nat) : Run (Option (Nat × Nat)) := do
  let first ← sized (rowsStart table.buckets + rowBytes * index)
  match number? table.block halfBytes first with
  | none => return none
  | some hash =>
    return (number? table.block halfBytes (← sized (first + halfBytes))).map (hash, ·)

def recordAt (table : RestingTable) (place : Nat) : RestingRecord := ⟨table.block, place⟩

/-- The first of some rows whose record has this hash and this name. -/
def search (table : RestingTable) (hash : Nat) (name : List UInt8) :
    List Nat → Run (Option RestingRecord)
  | [] => return none
  | index :: rest => do
    match ← table.row? index with
    | none => search table hash name rest
    | some (found, place) =>
      if found = hash ∧ (table.recordAt place).nameBytes? = some name then
        return some (table.recordAt place)
      else search table hash name rest

/-- The record of a class: its bucket alone is searched. -/
def find? (fallback : Fallback) (table : RestingTable) (name : String) :
    Run (Option RestingRecord) := do
  let hash := (hashName name).toNat
  let (first, last) ← table.rangeOf fallback hash
  table.search hash (utf8 name) (List.range' first (last - first))

def records (table : RestingTable) : Run (List RestingRecord) := do
  let rows ← (List.range table.rowCount).mapM table.row?
  return rows.filterMap fun row => row.map fun (_, place) => table.recordAt place

/-- The bucket starts never decrease and end at the row count. -/
def checkStarts (table : RestingTable) : (count bucket previous : Nat) → Check TablePart Unit
  | 0, _, previous => do
    if previous ≠ table.rowCount then throw .bucketCover
  | count + 1, bucket, previous => do
    match (← table.start? bucket : Option Nat) with
    | none => throw .bucketArray
    | some start =>
      if start < previous ∨ table.rowCount < start then throw .bucketStarts
      checkStarts table count (bucket + 1) start

/-- The row of this index must be in the bucket of its hash, and have a sound record. -/
def checkRow (fallback : Fallback) (table : RestingTable) (index : Nat) : Check TablePart Unit := do
  match (← table.row? index : Option (Nat × Nat)) with
  | none => throw .entry
  | some (hash, place) =>
    let (first, last) ← table.rangeOf fallback hash
    if ¬ (first ≤ index ∧ index < last) then throw .bucketOfEntry
    (table.recordAt place).check fallback hash

/-- All that follows the header must be sound. -/
def check (fallback : Fallback) (table : RestingTable) : Check TablePart Unit := do
  let rows ← sized (rowsStart table.buckets)
  if table.block.size < (← sized (rows + rowBytes * table.rowCount)) then throw .entriesOutOfBounds
  table.checkStarts (table.buckets + 1) 0 0
  (List.range table.rowCount).forM (table.checkRow fallback)

/-- Check the bytes of a table, and keep them. -/
def load (fallback : Fallback) (block : Array UInt8) : Check Malformed RestingTable := do
  if block.size < headerBytes then throw .tableMagic
  if (← slice block 0 4) ≠ magic then throw .tableMagic
  let low ← (entryAt block 4 : Run UInt8)
  let high ← (entryAt block 5 : Run UInt8)
  let version := LittleEndian.decode [low, high]
  if version ≠ TableLayout.version then throw (.tableVersion version)
  match number? block halfBytes 8, number? block halfBytes 12 with
  | some buckets, some rowCount =>
    if buckets = 0 then throw .tableBuckets
    let table : RestingTable := ⟨block, buckets, rowCount⟩
    ExceptT.adapt .tableCorrupt (table.check fallback)
    return table
  | _, _ => throw .tableTruncated

end RestingTable
end FrozenHeap
