import FrozenHeap.Archive
import FrozenHeap.Failure
import FrozenHeap.LittleEndian
import FrozenHeap.RecordTable.NameHash

/-!
The written form of an archive: a header with the narrowing, the class names, the record table, and
each region with its words and its packed marks. Sections follow each other without padding, each
behind its length.
-/
namespace FrozenHeap.Archive

def magic : List UInt8 := [0x48, 0x53, 0x41, 0x52]

def version : Nat := 1

/-- The most words that a region may have when it is read. -/
def maxWords : Nat := UInt32.size

def sectionOf (bytes : List UInt8) : List UInt8 :=
  LittleEndian.encode 4 bytes.length ++ bytes

def wordsOf (words : Array UInt64) : List UInt8 :=
  words.toList.flatMap fun word => LittleEndian.encode 8 word.toNat

def imageOf (image : Image) : List UInt8 :=
  LittleEndian.encode 1 image.region.code ++ LittleEndian.encode 8 image.base.toNat ++
    LittleEndian.encode 8 image.words.size ++ wordsOf image.words ++ wordsOf image.marks.words

def headerOf (archive : Archive) : List UInt8 :=
  magic ++ LittleEndian.encode 2 version ++ LittleEndian.encode 2 archive.regions.length ++
    LittleEndian.encode 8 archive.narrowing.base.toNat ++
    LittleEndian.encode 4 archive.narrowing.shift

/-- Does every section's length fit its four bytes? -/
def sectionsFit (archive : Archive) : Bool :=
  archive.names.size < UInt32.size && archive.names.all (·.utf8ByteSize < UInt32.size) &&
    archive.table.size < UInt32.size

def toBytes (archive : Archive) : Except Malformed (List UInt8) :=
  if UInt16.size ≤ archive.regions.length then .error .regionCount
  else if archive.sectionsFit then
    .ok (archive.headerOf ++
      LittleEndian.encode 4 archive.names.size ++
      archive.names.toList.flatMap (fun name => sectionOf (utf8 name)) ++
      sectionOf archive.table.toList ++
      archive.regions.flatMap imageOf)
  else .error .sectionSize

end FrozenHeap.Archive
