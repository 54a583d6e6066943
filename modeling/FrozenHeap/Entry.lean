import FrozenHeap.Region
import FrozenHeap.Identity

namespace FrozenHeap

/-- How an entry's value is read. -/
inductive EntryKind where
  /-- A narrow reference into this region, or null. -/
  | reference (region : Region)
  /-- The bits of a primitive field. -/
  | primitive
  deriving DecidableEq, Repr, Inhabited

namespace EntryKind

def code : EntryKind → Nat
  | reference region => region.code
  | primitive => 2

def ofCode? : Nat → Option EntryKind
  | 0 => some (reference .closed)
  | 1 => some (reference .opened)
  | 2 => some primitive
  | _ => none

def region? : EntryKind → Option Region
  | reference region => some region
  | primitive => none

theorem ofCode?_code (kind : EntryKind) : ofCode? kind.code = some kind := by
  cases kind with
  | reference region => cases region <;> rfl
  | primitive => rfl

end EntryKind

/-- The archived value of the static field at `offset`. -/
structure Entry where
  offset : UInt32
  kind : EntryKind
  value : UInt64
  deriving DecidableEq, Repr, Inhabited

namespace Entry

def reference (offset : UInt32) (region : Region) (narrow : UInt32) : Entry :=
  ⟨offset, .reference region, narrow.toUInt64⟩

def primitive (offset : UInt32) (bits : UInt64) : Entry := ⟨offset, .primitive, bits⟩

/-- The narrow reference of an entry that holds one of 32 bits. -/
def narrow? (entry : Entry) : Option UInt32 :=
  match entry.kind with
  | .reference _ => if entry.value.toNat < UInt32.size then some entry.value.toUInt32 else none
  | .primitive => none

end Entry

/-- What an archive keeps of one root class. -/
structure Record where
  className : String
  entries : List Entry
  classes : List String
  isPartial : Bool
  deriving DecidableEq, Repr, Inhabited

end FrozenHeap
