import FrozenHeap.Live
import FrozenHeap.Settings

/-!
Drafts. A draft is an archive's two images while they grow: objects are laid out one behind the
other, and their reference slots stay null until they are patched. The first word of the closed
region is kept free, so that no object has the narrow form of null.
-/
namespace FrozenHeap

/-- A word of a copy, with its mark. -/
structure Cell where
  word : UInt64
  isReference : Bool
  deriving DecidableEq, Repr, Inhabited

/-- An object as an image holds it. -/
structure Copy where
  className : String
  cells : Array Cell
  deriving DecidableEq, Repr, Inhabited

/-- What a slot is laid out as before its reference is known. -/
def Slot.word : Slot → UInt64
  | .bits word => word
  | .null => 0
  | .ref _ => 0

structure Draft where
  narrowing : Narrowing
  capacity : UInt64
  closed : Image
  opened : Image
  /-- Class names in the order of their first use; headers name classes by position. -/
  names : Array String
  deriving DecidableEq

/-- A point of a draft's growth: the word counts of its images. -/
structure Draft.Mark where
  closed : Nat
  opened : Nat
  deriving DecidableEq, Repr, Inhabited

namespace Draft

/-- A draft without objects, under settings that pass validation. -/
def start (settings : Settings) : Except Malformed Draft :=
  match settings.validate with
  | .error cause => .error cause
  | .ok narrowing => .ok {
      narrowing := narrowing
      capacity := settings.capacity
      closed := ⟨.closed, settings.baseOf .closed, #[0], .clear 1⟩
      opened := .empty .opened (settings.baseOf .opened)
      names := #[] }

def image (draft : Draft) : Region → Image
  | .closed => draft.closed
  | .opened => draft.opened

def modifyImage (draft : Draft) (region : Region) (change : Image → Image) : Draft :=
  match region with
  | .closed => { draft with closed := change draft.closed }
  | .opened => { draft with opened := change draft.opened }

/-- The position of a class name, which is added if it is new. It is handed out as a number and cut
to 32 bits where it is written, by `layOut`; nothing else reads it. -/
def nameIndex (draft : Draft) (name : String) : Nat × Draft :=
  match draft.names.findIdx? (· == name) with
  | some index => (index, draft)
  | none => (draft.names.size, { draft with names := draft.names.push name })

/-- Append an object of this class index to an image. -/
def layOut (image : Image) (classIndex : Nat) (slots : Array Slot) : Image :=
  let first := image.words.size + 1
  { image with
    words := image.words.push (header (UInt32.ofNat classIndex) (UInt32.ofNat slots.size)) ++
      slots.map Slot.word
    marks := slots.toList.zipIdx.foldl
      (fun marks (slot, index) => if slot.isReference then marks.add (first + index) else marks)
      (image.marks.grow (first + slots.size)) }

/-- Lay out an object behind the others of its region. A region that is full stays as it is. -/
def allocate (draft : Draft) (region : Region) (name : String) (slots : Array Slot) :
    Step Draft Place :=
  let size := (draft.image region).words.size
  if draft.capacity.toNat < wordBytes * (size + 1 + slots.size) ∨ UInt32.size ≤ slots.size then
    .ok (.error (.regionOverflow region draft.capacity), draft)
  else
    match toWord (wordBytes * size) with
    | .error breach => .error breach
    | .ok distance =>
      match addWord (draft.image region).base distance with
      | .error breach => .error breach
      | .ok address =>
        let (classIndex, named) := draft.nameIndex name
        .ok (.ok ⟨region, address⟩, named.modifyImage region (layOut · classIndex slots))

/-- The index of the word at an address, rounded down. -/
def wordIndex (image : Image) (address : UInt64) : Run Nat := do
  return (← subWord address image.base).toNat / wordBytes

/-- Let a reference slot of an object refer to a copy, or to null. -/
def patch (draft : Draft) (holder : Place) (slot : Nat) (target : Option Place) : Run Draft := do
  let index := (← wordIndex (draft.image holder.region) holder.address) + 1 + slot
  let narrow ← match target with
    | some place => draft.narrowing.narrow place.address
    | none => .ok 0
  ensure ((draft.image holder.region).marks.isSet index = true)
  if index < (draft.image holder.region).words.size then
    return draft.modifyImage holder.region fun image =>
      { image with words := image.words.setIfInBounds index narrow.toUInt64 }
  else .error .outOfRange

/-- Read the object whose header lies at a word of an image. -/
def readCopy (names : Array String) (image : Image) (index : Nat) : Option Copy := do
  let word ← image.words[index]?
  let count := headerSlots word
  if index + 1 + count ≤ image.words.size then
    return {
      className := ← names[headerClass word]?
      cells := (image.words.extract (index + 1) (index + 1 + count)).mapIdx fun offset word =>
        ⟨word, image.marks.isSet (index + 1 + offset)⟩ }
  else none

/-- The object at an address of a region, if there can be one. -/
def copyAt? (draft : Draft) (place : Place) : Run (Option Copy) := do
  let image := draft.image place.region
  if ← image.contains place.address then
    return readCopy draft.names image (← wordIndex image place.address)
  else return none

/-- The address of a narrow reference, with the first region that spans it. -/
def resolve? (draft : Draft) (narrow : Narrow) : Run (Option Place) := do
  if narrow = 0 then return none
  else
    let address := draft.narrowing.widen narrow
    if ← draft.closed.contains address then return some ⟨.closed, address⟩
    else if ← draft.opened.contains address then return some ⟨.opened, address⟩
    else return none

def mark (draft : Draft) : Mark := ⟨draft.closed.words.size, draft.opened.words.size⟩

/-- Drop what was laid out behind a mark. Class names stay. -/
def rollback (draft : Draft) (mark : Mark) : Draft :=
  { draft with
    closed := draft.closed.truncate mark.closed
    opened := draft.opened.truncate mark.opened }

/-- The finished images. A closed region without objects is empty. -/
def finish (draft : Draft) : Array String × Image × Image :=
  let closed := if draft.closed.words.size = 1 then draft.closed.truncate 0 else draft.closed
  (draft.names, closed, draft.opened)

end Draft
end FrozenHeap
