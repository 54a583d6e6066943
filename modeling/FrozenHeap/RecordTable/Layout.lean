import FrozenHeap.Failure
import FrozenHeap.LittleEndian
import FrozenHeap.RecordTable.NameHash
import Std.Data.TreeMap

/-!
The written form of a record table. It is one block of bytes whose references are offsets from its
start: a header, the index of each bucket's first row, the rows (the hash of a name and the offset
of a record), the records, and the names, each of which is written once.
-/
namespace FrozenHeap

/-- A record with the hash of its name. -/
structure Row where
  hash : UInt32
  record : Record
  deriving DecidableEq, Repr, Inhabited

def Row.of (record : Record) : Row := ⟨hashName record.className, record⟩

def Row.bucket (buckets : Nat) (row : Row) : Nat := row.hash.toNat % buckets

/-- Rows are ordered by bucket, hash and name. -/
def Row.order (buckets : Nat) (left right : Row) : Ordering :=
  (compare (left.bucket buckets) (right.bucket buckets)).then
    ((compare left.hash right.hash).then (compare left.record.className right.record.className))

namespace TableLayout

def magic : List UInt8 := [0x48, 0x53, 0x54, 0x42]

def version : Nat := 1

def headerBytes : Nat := 16

/-- The size of a row, and of an entry's kind and offset. -/
def rowBytes : Nat := 8

def recordHeaderBytes : Nat := 16

def entryBytes : Nat := 16

def halfBytes : Nat := 4

def rowsStart (buckets : Nat) : Nat := headerBytes + halfBytes * (buckets + 1)

/-- The size of a record with so many entries and classes. -/
def recordSize (entries classes : Nat) : Nat :=
  recordHeaderBytes + entryBytes * entries + halfBytes * classes

def sizeOf (record : Record) : Nat := recordSize record.entries.length record.classes.length

def half (n : Nat) : List UInt8 := LittleEndian.encode halfBytes n

/-- A name with its length in front, padded to a multiple of four bytes. -/
def text (name : String) : List UInt8 :=
  half (utf8 name).length ++ utf8 name ++ List.replicate ((4 - (utf8 name).length % 4) % 4) 0

/-- The names of some records in the order of their first use. -/
def namesOf (records : List Record) : List String :=
  (records.flatMap fun record => record.className :: record.classes).eraseDups

/-- The offsets of items laid out one behind the other. -/
def offsetsFrom (size : α → Nat) : (start : Nat) → List α → List Nat
  | _, [] => []
  | start, item :: rest => start :: offsetsFrom size (start + size item) rest

/-- The bytes that items take one behind the other. -/
def extent (size : α → Nat) (items : List α) : Nat :=
  items.foldr (fun item behind => size item + behind) 0

def nameOffsets (start : Nat) (names : List String) : Std.TreeMap String Nat :=
  (names.zip (offsetsFrom (fun name => (text name).length) start names)).foldl
    (fun offsets (name, offset) => offsets.insert name offset) ∅

def entryBlock (entry : Entry) : List UInt8 :=
  half entry.offset.toNat ++ half entry.kind.code ++ LittleEndian.encode 8 entry.value.toNat

def recordBlock (offsets : Std.TreeMap String Nat) (record : Record) : List UInt8 :=
  half (offsets.getD record.className 0) ++ half (if record.isPartial then 1 else 0) ++
    half record.entries.length ++ half record.classes.length ++
    record.entries.flatMap entryBlock ++
    record.classes.flatMap fun name => half (offsets.getD name 0)

/-- The index of the first row of each bucket, and behind these the number of rows. -/
def startsOf (buckets : Nat) (rows : List Row) : List Nat :=
  (List.range (buckets + 1)).map fun bucket => rows.countP (·.bucket buckets < bucket)

def block (buckets : Nat) (rows : List Row) : List UInt8 :=
  let records := rows.map (·.record)
  let recordsStart := rowsStart buckets + rowBytes * rows.length
  let places := offsetsFrom sizeOf recordsStart records
  let names := namesOf records
  let offsets := nameOffsets (recordsStart + extent sizeOf records) names
  magic ++ LittleEndian.encode 2 version ++ LittleEndian.encode 2 0 ++ half buckets ++
    half rows.length ++
    (startsOf buckets rows).flatMap half ++
    (rows.zip places).flatMap (fun (row, place) => half row.hash.toNat ++ half place) ++
    records.flatMap (recordBlock offsets) ++
    names.flatMap text

end TableLayout
end FrozenHeap
