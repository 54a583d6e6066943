import FrozenHeap.Entry
import FrozenHeap.Narrowing

namespace FrozenHeap

structure Archive where
  narrowing : Narrowing
  /-- Class names; object headers name classes by position. -/
  names : Array String
  /-- The record table in its written form. -/
  table : Array UInt8
  regions : List Image
  deriving DecidableEq

namespace Archive

def image? (archive : Archive) (region : Region) : Option Image :=
  archive.regions.find? (·.region = region)

/-- Change the first image of a region among others. -/
def modifyFirst (region : Region) (change : Image → Run Image) : List Image → Run (List Image)
  | [] => .ok []
  | image :: rest =>
    if image.region = region then do return (← change image) :: rest
    else do return image :: (← modifyFirst region change rest)

def modifyImage (archive : Archive) (region : Region) (change : Image → Run Image) :
    Run Archive := do
  return { archive with regions := ← modifyFirst region change archive.regions }

end Archive
end FrozenHeap
