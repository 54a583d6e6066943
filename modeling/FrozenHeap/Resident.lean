import FrozenHeap.Failure
import FrozenHeap.Narrowing
import FrozenHeap.Relocation

/-!
Resident regions. An image is copied into memory that is granted to it, and becomes resident. Its
marked words are narrow references at first; fixing it up turns all of them into addresses at once,
or changes nothing.
-/
namespace FrozenHeap

/-- Granted memory. It does not reach the end of the address space. -/
structure Grant where
  address : UInt64
  length : Nat
  fits : address.toNat + length < UInt64.size

/-- How memory is granted to a region: from the address it was laid out for and its length. -/
abbrev Mapper := Region → UInt64 → Nat → Except MapFault Grant

/-- A region in memory. -/
structure Resident where
  region : Region
  /-- The address that the region was laid out for. -/
  base : UInt64
  /-- The address that it has. -/
  live : UInt64
  words : Array UInt64
  marks : Marks
  fixed : Bool
  fits : live.toNat + wordBytes * words.size < UInt64.size

/-- What was found at the marked words of a region. -/
structure FixupCount where
  patched : Nat := 0
  nulls : Nat := 0
  deriving DecidableEq, Repr, Inhabited

def FixupCount.add (left right : FixupCount) : FixupCount :=
  ⟨left.patched + right.patched, left.nulls + right.nulls⟩

namespace Resident

/-- Copy an image into the memory that is granted to it. -/
def map (mapper : Mapper) (image : Image) : Outcome Resident :=
  match mapper image.region image.base image.byteLength with
  | .error fault => .error (.mapFailed image.region fault)
  | .ok grant =>
    if long : image.byteLength ≤ grant.length then
      .ok {
        region := image.region
        base := image.base
        live := grant.address
        words := image.words
        marks := image.marks
        fixed := false
        fits := Nat.lt_of_le_of_lt (Nat.add_le_add_left long _) grant.fits }
    else .error (.mapFailed image.region .tooShort)

def byteLength (resident : Resident) : Nat := wordBytes * resident.words.size

def contains (resident : Resident) (address : UInt64) : Bool :=
  resident.live ≤ address && address.toNat < resident.live.toNat + resident.byteLength

/-- The distance of an address from the start of the region. -/
def distance (resident : Resident) (address : UInt64) : Nat := address.toNat - resident.live.toNat

/-- The word at an address that is a multiple of the word size. -/
def wordAt? (resident : Resident) (address : UInt64) : Option UInt64 :=
  if resident.contains address = true ∧ address.toNat % wordBytes = 0 then
    resident.words[resident.distance address / wordBytes]?
  else none

def relocation (resident : Resident) : Relocation :=
  ⟨resident.region, resident.base, UInt64.ofNat resident.byteLength, resident.live⟩

/-- The address that a marked word stands for; none for null. Past the last word, and above 32 bits,
there is no narrow reference. -/
def target (resident : Resident) (narrowing : Narrowing) (relocations : Relocations) (index : Nat) :
    Run (Outcome (Option UInt64)) :=
  let dangling narrow := Failure.danglingReference resident.region index narrow
  match resident.words[index]? with
  | none => .ok (.error (dangling 0xffffffff))
  | some word =>
    if UInt32.size ≤ word.toNat then .ok (.error (dangling 0xffffffff))
    else if word = 0 then .ok (.ok none)
    else
      match relocations.relocate? (narrowing.widen word.toUInt32) with
      | .error breach => .error breach
      | .ok none => .ok (.error (dangling word.toUInt32))
      | .ok (some address) => .ok (.ok (some address))

/-- The addresses that marked words stand for, behind those found before, and the count of nulls. -/
def targets (resident : Resident) (narrowing : Narrowing) (relocations : Relocations) :
    List Nat → Array (Nat × UInt64) → Nat → Run (Outcome (Array (Nat × UInt64) × Nat))
  | [], found, nulls => .ok (.ok (found, nulls))
  | index :: rest, found, nulls =>
    match resident.target narrowing relocations index with
    | .error breach => .error breach
    | .ok (.error failure) => .ok (.error failure)
    | .ok (.ok none) => targets resident narrowing relocations rest found (nulls + 1)
    | .ok (.ok (some address)) =>
      targets resident narrowing relocations rest (found.push (index, address)) nulls

def setWord (resident : Resident) (index : Nat) (word : UInt64) : Resident where
  region := resident.region
  base := resident.base
  live := resident.live
  words := resident.words.setIfInBounds index word
  marks := resident.marks
  fixed := resident.fixed
  fits := by simpa using resident.fits

/-- Turn the marked words into addresses, once. A word that cannot be turned stops all of it. That
the memory of a closed region is made read-only afterwards is left out: it is taken to succeed, and
no word changes by it. -/
def fixup (resident : Resident) (narrowing : Narrowing) (relocations : Relocations) :
    Step Resident FixupCount :=
  if resident.fixed then .ok (.error (.alreadyFixedUp resident.region), resident)
  else
    match resident.targets narrowing relocations resident.marks.toList #[] 0 with
    | .error breach => .error breach
    | .ok (.error failure) => .ok (.error failure, resident)
    | .ok (.ok (found, nulls)) =>
      let patched :=
        found.foldl (fun resident (index, word) => resident.setWord index word) resident
      .ok (.ok ⟨found.size, nulls⟩, { patched with fixed := true })

end Resident
end FrozenHeap
