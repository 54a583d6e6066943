import FrozenHeap.Archive.Reading
import FrozenHeap.RecordTable.Resting

/-!
Reading archives with machine words. The lengths of the sections come from the bytes themselves;
what is computed from them must fit a machine word, words are only shifted by less than their width,
and bytes are only taken from within what was read.
-/
namespace FrozenHeap

def shiftUp (word : UInt64) (distance : Nat) : Run UInt64 :=
  if distance < 64 then .ok (word <<< UInt64.ofNat distance) else .error .overflow

def shiftDown (word : UInt64) (distance : Nat) : Run UInt64 :=
  if distance < 64 then .ok (word >>> UInt64.ofNat distance) else .error .overflow

def ceiling (n divisor : Nat) : Run Nat := do
  let rest ← remainder n divisor
  if 0 < rest then sized (n / divisor + 1) else return n / divisor

namespace Narrowing

/-- The narrowing with this base and shift, if they are fit for one. -/
def measure (base : UInt64) (shift : Nat) : Run (Option Narrowing) :=
  if maxShift < shift then .ok none
  else do
    let step ← shiftUp 1 shift
    let low ← subWord step 1
    if base &&& low ≠ 0 then return none
    else
      let reach ← shiftUp (UInt64.ofNat (UInt32.size - 1)) shift
      if UInt64.size ≤ base.toNat + reach.toNat then return none
      else return of? base shift

end Narrowing

namespace Marks

def tally (words : Array UInt64) : Run Nat :=
  words.toList.foldlM (fun total word => FrozenHeap.sized (total + popCount word)) 0

/-- Does the last of some packed words have a bit past `length`? -/
def strays (words : Array UInt64) (length : Nat) : Run Bool := do
  let used ← remainder length 64
  if used = 0 then return false
  else
    match words.back? with
    | none => return true
    | some last => return (← shiftDown last used) != 0

/-- Marks from packed words, whose set bits are counted. -/
def measure (words : Array UInt64) (length : Nat) : Run (Option (Marks × Nat)) := do
  if words.size ≠ (← ceiling length 64) then return none
  else if ← strays words length then return none
  else
    let total ← tally words
    return (ofWords? words length).map (·, total)

end Marks

/-- An image with the number of its marks. -/
structure CountedImage where
  image : Image
  marked : Nat

/-- A reader that computes with machine words. -/
abbrev MeasuringReader (α : Type) := StateT (List UInt8) (Check Malformed) α

namespace MeasuringReader

/-- Read what takes no computing. -/
def plain (reader : Reader α) : MeasuringReader α := fun bytes => .mk (.ok (reader bytes))

def wordOf (chunk : List UInt8) : Run UInt64 := do
  let bytes ← (List.range wordBytes).mapM (entryAt chunk.toArray ·)
  return UInt64.ofNat (LittleEndian.decode bytes)

def words (count : Nat) : MeasuringReader (Array UInt64) := do
  let length : Nat ← liftM (sized (count * wordBytes))
  let block ← plain (Reader.bytes length)
  let words : List UInt64 ← liftM ((List.range (block.length / wordBytes)).mapM fun index => do
    wordOf (← slice block.toArray (wordBytes * index) (wordBytes * index + wordBytes)))
  return words.toArray

def narrowing : MeasuringReader Narrowing := do
  let base ← plain Reader.word
  let shift ← plain (Reader.number 4)
  let answer : Option Narrowing ← liftM (Narrowing.measure base shift)
  plain (Reader.require (.archiveNarrowing base shift) answer)

/-- An image of a region that is not among those read before. -/
def image (before : List CountedImage) : MeasuringReader CountedImage := do
  let code ← plain (Reader.number 1)
  let region ← plain (Reader.require .regionCode (Region.ofCode? code))
  if before.any (·.image.region = region) then throw (.regionTwice region)
  let base ← plain Reader.word
  let count ← plain (Reader.number 8)
  if Archive.maxWords < count then throw .regionSize
  let words ← words count
  let size : Nat ← liftM (ceiling count 64)
  let packed ← MeasuringReader.words size
  let answer : Option (Marks × Nat) ← liftM (Marks.measure packed count)
  let (marks, marked) ← plain (Reader.require (.regionMarks region) answer)
  return ⟨⟨region, base, words, marks⟩, marked⟩

def images : (count : Nat) → List CountedImage → MeasuringReader (List CountedImage)
  | 0, before => pure before
  | count + 1, before => do images count (before ++ [← image before])

def archive : MeasuringReader (Archive × List Nat) := do
  let magic ← plain (Reader.bytes 4)
  if magic ≠ Archive.magic then throw .archiveMagic
  let version ← plain (Reader.number 2)
  if version ≠ Archive.version then throw (.archiveVersion version)
  let regionCount ← plain (Reader.number 2)
  let narrowing ← narrowing
  let nameCount ← plain (Reader.number 4)
  let names ← plain (Reader.array Reader.name nameCount)
  let length ← plain (Reader.number 4)
  let table ← plain (Reader.bytes length)
  let found ← images regionCount []
  let ordered := Region.all.filterMap fun region => found.find? (·.image.region = region)
  return (⟨narrowing, names, table.toArray, ordered.map (·.image)⟩, ordered.map (·.marked))

end MeasuringReader

/-- Read an archive from the front of some bytes with machine words. Each region comes with the
number of its marks. -/
def Archive.measure (bytes : List UInt8) : Check Malformed (Archive × List Nat) := do
  return (← MeasuringReader.archive.run bytes).1

end FrozenHeap
