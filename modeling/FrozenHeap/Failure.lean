import FrozenHeap.Entry

namespace FrozenHeap

def hexLiteral (n : Nat) : String := "0x" ++ String.ofList (Nat.toDigits 16 n)

/-- The part of a record table that does not hold together. -/
inductive TablePart where
  | entriesOutOfBounds
  | bucketArray
  | bucketStarts
  | bucketCover
  | entry
  | bucketOfEntry
  | recordName
  | recordHash
  | fieldCount
  | classCount
  | recordOutOfBounds
  | field
  | entryKind
  | classRef
  | className
  deriving DecidableEq, Repr

def TablePart.message : TablePart → String
  | entriesOutOfBounds => "entries out of bounds"
  | bucketArray => "bucket array"
  | bucketStarts => "bucket starts not monotonic"
  | bucketCover => "bucket array does not cover all entries"
  | entry => "entry"
  | bucketOfEntry => "entry in wrong bucket"
  | recordName => "record name"
  | recordHash => "record hash mismatch"
  | fieldCount => "record field count"
  | classCount => "record class count"
  | recordOutOfBounds => "record out of bounds"
  | field => "field"
  | entryKind => "unknown entry kind"
  | classRef => "class ref"
  | className => "class name"

/-- Why settings, a table or an archive file are not what they should be. -/
inductive Malformed where
  | narrowing (base : UInt64) (shift : Nat)
  | capacity (bytes : UInt64)
  | regionsEnd (last limit : UInt64)
  | bucketSize
  | tableMagic
  | tableVersion (version : Nat)
  | tableTruncated
  | tableBuckets
  | tableCorrupt (part : TablePart)
  | tableOffset (offset : Nat)
  | archiveMagic
  | archiveVersion (version : Nat)
  | archiveNarrowing (base : UInt64) (shift : Nat)
  | archiveTruncated
  | className
  | regionCode
  | regionTwice (region : Region)
  | regionSize
  | regionMarks (region : Region)
  | regionCount
  | sectionSize
  deriving DecidableEq, Repr

def Malformed.message : Malformed → String
  | narrowing base shift =>
    s!"base {hexLiteral base.toNat} / shift {shift} is not a valid narrow encoding (max shift 3)"
  | capacity bytes => s!"region capacity {bytes.toNat} must be a non-zero multiple of 8"
  | regionsEnd last limit =>
    s!"regions end at {hexLiteral last.toNat}, beyond narrow range {hexLiteral limit.toNat}"
  | bucketSize => "bucket size must be non-zero"
  | tableMagic => "bad table magic"
  | tableVersion version => s!"unsupported table version {version}"
  | tableTruncated => "truncated table"
  | tableBuckets => "table has no buckets"
  | tableCorrupt part => "corrupt table: " ++ part.message
  | tableOffset offset => s!"table offset {offset} overflows u32"
  | archiveMagic => "bad archive magic"
  | archiveVersion version => s!"unsupported archive version {version}"
  | archiveNarrowing base shift => s!"invalid codec base {hexLiteral base.toNat} shift {shift}"
  | archiveTruncated => "truncated archive"
  | className => "class name is not utf-8"
  | regionCode => "unknown region kind"
  | regionTwice region => s!"duplicate {region.label} region"
  | regionSize => "region too large"
  | regionMarks region => s!"{region.label} region bitmap is inconsistent"
  | regionCount => "too many regions"
  | sectionSize => "section too large"

/-- How a copy differs from the live object it was made from. -/
inductive Mismatch where
  | sharedTwice
  | unreadable
  | className
  | slotCount
  | unresolved
  | slot
  deriving DecidableEq, Repr

def Mismatch.message : Mismatch → String
  | sharedTwice => "shared object archived twice"
  | unreadable => "copy is not a valid archived object"
  | className => "class differs"
  | slotCount => "slot count differs"
  | unresolved => "reference does not resolve"
  | slot => "slot differs"

/-- Why no memory was granted for a region. -/
inductive MapFault where
  | emptyLength
  /-- More was asked for than there is. -/
  | exhausted
  | tooShort
  | refused (reason : String)
  deriving DecidableEq, Repr

def MapFault.message : MapFault → String
  | emptyLength => "mapping length must be non-zero"
  | exhausted => "Cannot allocate memory (os error 12)"
  | tooShort => "mapping shorter than region"
  | refused reason => reason

inductive Failure where
  | malformed (cause : Malformed)
  | unarchivable (className : String)
  | closedReferencesOpen (className : String)
  | regionOverflow (region : Region) (capacity : UInt64)
  | mapFailed (region : Region) (fault : MapFault)
  | alreadyFixedUp (region : Region)
  | danglingReference (region : Region) (word : Nat) (narrow : UInt32)
  | unresolvedClass (className : String)
  | verificationFailed (object : ObjectId) (className : String) (mismatch : Mismatch)
  deriving DecidableEq, Repr

def Failure.message : Failure → String
  | malformed cause => "malformed archive: " ++ cause.message
  | unarchivable className => s!"object of class `{className}` cannot be archived"
  | closedReferencesOpen className =>
    s!"closed region object would reference open region object of class `{className}`"
  | regionOverflow region capacity =>
    s!"{region.label} region exceeded its capacity of {capacity.toNat} bytes"
  | mapFailed region fault => s!"failed to map {region.label} region: {fault.message}"
  | alreadyFixedUp region => s!"{region.label} region has already been fixed up"
  | danglingReference region word narrow =>
    s!"reference {hexLiteral narrow.toNat} at word {word} of {region.label} region " ++
      "points outside the archive"
  | unresolvedClass className => s!"class `{className}` cannot be resolved"
  | verificationFailed object className mismatch =>
    s!"archived subgraph diverges from live graph: ObjectId({object.index}) ({className}): " ++
      mismatch.message

/-- A computation that may fail for a cause of the domain, and then has no result. -/
abbrev Outcome (α : Type) := Except Failure α

/-- A change of state that may be stopped by a breach; a failure leaves a state as well. -/
abbrev Step (State α : Type) := Run (Outcome α × State)

end FrozenHeap
