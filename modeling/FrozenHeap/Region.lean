import FrozenHeap.Marks

/-!
Regions. An archive has two regions of 64-bit words: the closed one, never changed after it is
loaded, and the open one. An `Image` is a region's content at the address it was laid out for.
-/
namespace FrozenHeap

def wordBytes : Nat := 8

inductive Region where
  /-- Never changed after loading. -/
  | closed
  /-- May be changed in place after loading. -/
  | opened
  deriving DecidableEq, Repr, Inhabited

namespace Region

/-- The regions in archive order. -/
def all : List Region := [closed, opened]

def label : Region → String
  | closed => "closed"
  | opened => "open"

def code : Region → Nat
  | closed => 0
  | opened => 1

def ofCode? : Nat → Option Region
  | 0 => some closed
  | 1 => some opened
  | _ => none

theorem ofCode?_code (region : Region) : ofCode? region.code = some region := by
  cases region <;> rfl

end Region

/-- An address of the layout, with the region it belongs to. -/
structure Place where
  region : Region
  address : UInt64
  deriving DecidableEq, Repr, Inhabited

/-- A region's words and which of them hold references. -/
structure Image where
  region : Region
  base : UInt64
  words : Array UInt64
  marks : Marks
  deriving DecidableEq

namespace Image

def empty (region : Region) (base : UInt64) : Image := ⟨region, base, #[], .clear 0⟩

instance : Inhabited Image := ⟨empty .closed 0⟩

def byteLength (image : Image) : Nat := wordBytes * image.words.size

/-- Does the image span this address? An address above its base is compared with its end, which
must exist. -/
def contains (image : Image) (address : UInt64) : Run Bool :=
  if address < image.base then .ok false
  else if image.base.toNat + image.byteLength < UInt64.size then
    .ok (decide (address.toNat < image.base.toNat + image.byteLength))
  else .error .overflow

def truncate (image : Image) (size : Nat) : Image :=
  { image with words := image.words.take size, marks := image.marks.truncate size }

end Image

/-- The first word of an object: its class index below, its slot count above. -/
def header (classIndex slotCount : UInt32) : UInt64 :=
  classIndex.toUInt64 ||| (slotCount.toUInt64 <<< 32)

def headerClass (word : UInt64) : Nat := word.toNat % UInt32.size

def headerSlots (word : UInt64) : Nat := word.toNat / UInt32.size

end FrozenHeap
