import FrozenHeap.Resident
import Std.Data.TreeMap

namespace FrozenHeap

def pageBytes : Nat := 4096

/-- The bytes of the pages that hold `length` bytes. -/
def wholePages (length : Nat) : Nat := (length + pageBytes - 1) / pageBytes * pageBytes

/-- The bytes of the pages that hold `length` bytes, if they can be counted in 64 bits. -/
def roundToPage (length : Nat) : Run Nat :=
  if wholePages length < UInt64.size then .ok (wholePages length) else .error .overflow

/-- Mapped memory. -/
structure Mapping where
  address : UInt64
  length : Nat
  /-- The bytes that were written, by their offsets. -/
  written : Std.TreeMap Nat UInt8

namespace Mapping

/-- Map memory at an address. It may not be empty, and takes less than all the memory there is. -/
def map (memory : Nat) (address : UInt64) (length : Nat) : Except MapFault Mapping :=
  if length = 0 then .error .emptyLength
  else if memory ≤ wholePages length then .error .exhausted
  else .ok ⟨address, length, ∅⟩

def isEmpty (mapping : Mapping) : Bool := mapping.length == 0

def isAligned (mapping : Mapping) : Bool := mapping.address.toNat % pageBytes == 0

def byteAt (mapping : Mapping) (offset : Nat) : UInt8 := mapping.written.getD offset 0

def isZero (mapping : Mapping) : Bool := mapping.written.toList.all (·.2 == 0)

def read (mapping : Mapping) (offset length : Nat) : Run (List UInt8) :=
  if offset + length ≤ mapping.length then
    .ok ((List.range length).map fun index => mapping.byteAt (offset + index))
  else .error .outOfRange

def write (mapping : Mapping) (offset : Nat) (bytes : List UInt8) : Run Mapping :=
  if offset + bytes.length ≤ mapping.length then
    .ok { mapping with
      written := bytes.zipIdx.foldl (fun written (byte, index) =>
        written.insert (offset + index) byte) mapping.written }
  else .error .outOfRange

end Mapping

/-- Grant whole pages at an address of choice. Nothing is granted to an empty region. -/
def Mapper.pages (choose : Region → (base : UInt64) → (length : Nat) → UInt64) : Mapper :=
  fun region base length =>
    if length = 0 then .error .emptyLength
    else if fits : (choose region base length).toNat + wholePages length < UInt64.size then
      .ok ⟨choose region base length, wholePages length, fits⟩
    else .error .exhausted

/-- The addresses that processes may use. -/
def userSpace (address : UInt64) : Bool :=
  65536 ≤ address.toNat && address.toNat < 0x8000_0000_0000

/-- Do the pages behind two addresses have none in common? -/
def apart (first : UInt64) (firstLength : Nat) (second : UInt64) (secondLength : Nat) : Bool :=
  first.toNat + wholePages firstLength ≤ second.toNat ||
    second.toNat + wholePages secondLength ≤ first.toNat

/-- Grant whole pages at the address that a region was laid out for, unless that is not the start of
a page, or images of other regions were laid out for it too. -/
def Mapper.preferring (images : List Image) (otherwise : Region → UInt64) : Mapper :=
  Mapper.pages fun region base length =>
    let free := images.all fun image =>
      image.region = region || apart base length image.base image.byteLength
    if base.toNat % pageBytes = 0 ∧ userSpace base = true ∧ free = true then base
    else otherwise region

def Mapper.refusing (mapper : Mapper) (regions : List Region) (reason : String) : Mapper :=
  fun region base length =>
    if region ∈ regions then .error (.refused reason) else mapper region base length

end FrozenHeap
