import FrozenHeap.Archive.Written

namespace FrozenHeap

/-- Take a value from the front of some bytes. -/
abbrev Reader (α : Type) := StateT (List UInt8) (Except Malformed) α

namespace Reader

def bytes (length : Nat) : Reader (List UInt8) := fun rest =>
  let first := rest.take length
  if first.length = length then .ok (first, rest.drop length) else .error .archiveTruncated

def number (width : Nat) : Reader Nat := do return LittleEndian.decode (← bytes width)

def word : Reader UInt64 := do return UInt64.ofNat (← number 8)

/-- `count` values, behind those that are read already. -/
def repeatInto (reader : Reader α) : (count : Nat) → Array α → Reader (Array α)
  | 0, values => pure values
  | count + 1, values => fun rest =>
    match reader rest with
    | .ok (value, rest) => repeatInto reader count (values.push value) rest
    | .error cause => .error cause

def array (reader : Reader α) (count : Nat) : Reader (Array α) := repeatInto reader count #[]

/-- A value under a condition on what was read. -/
def require (cause : Malformed) : Option α → Reader α
  | some value => pure value
  | none => throw cause

def name : Reader String := do
  require .className (ofUtf8? (← bytes (← number 4)))

def narrowing : Reader Narrowing := do
  let base ← word
  let shift ← number 4
  require (.archiveNarrowing base shift) (Narrowing.of? base shift)

/-- An image of a region that is not among those read before. -/
def image (before : List Image) : Reader Image := do
  let region ← require .regionCode (Region.ofCode? (← number 1))
  if before.any (·.region = region) then throw (.regionTwice region)
  let base ← word
  let count ← number 8
  if Archive.maxWords < count then throw .regionSize
  let words ← array word count
  let packed ← array word (wordsFor count)
  let marks ← require (.regionMarks region) (Marks.ofWords? packed count)
  return ⟨region, base, words, marks⟩

def images : (count : Nat) → List Image → Reader (List Image)
  | 0, before => pure before
  | count + 1, before => do images count (before ++ [← image before])

def archive : Reader Archive := do
  if (← bytes 4) ≠ Archive.magic then throw .archiveMagic
  let version ← number 2
  if version ≠ Archive.version then throw (.archiveVersion version)
  let regionCount ← number 2
  let narrowing ← narrowing
  let names ← array name (← number 4)
  let table ← bytes (← number 4)
  let found ← images regionCount []
  return {
    narrowing := narrowing
    names := names
    table := table.toArray
    regions := Region.all.filterMap fun region => found.find? (·.region = region) }

end Reader

/-- Read an archive from the front of some bytes, its regions in archive order. -/
def Archive.ofBytes (bytes : List UInt8) : Except Malformed Archive :=
  (Reader.archive.run bytes).map (·.1)

end FrozenHeap
