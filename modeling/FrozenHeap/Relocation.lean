import FrozenHeap.Breach
import FrozenHeap.Region

/-!
Relocations. A region is laid out for one range of addresses and lies in another when it is used; an
address of the first range moves with the region that spans it.
-/
namespace FrozenHeap

/-- Where a region was laid out, and where it lies now. -/
structure Relocation where
  region : Region
  base : UInt64
  length : UInt64
  live : UInt64
  deriving DecidableEq, Repr, Inhabited

def Relocation.spans (relocation : Relocation) (address : UInt64) : Bool :=
  relocation.base ≤ address && address - relocation.base < relocation.length

/-- How far the region moved, counted modulo `2 ^ 64`. -/
def Relocation.shift (relocation : Relocation) : Int64 :=
  (relocation.live - relocation.base).toInt64

/-- Relocations of several regions; where ranges overlap, the first counts. -/
abbrev Relocations := List Relocation

namespace Relocations

def spanning? (relocations : Relocations) (address : UInt64) : Option Relocation :=
  relocations.find? (·.spans address)

def relocate? (relocations : Relocations) (address : UInt64) : Run (Option UInt64) :=
  match relocations.spanning? address with
  | none => .ok none
  | some relocation => do return some (← addWord relocation.live (address - relocation.base))

def regionOf? (relocations : Relocations) (address : UInt64) : Option Region :=
  (relocations.spanning? address).map (·.region)

def shift? (relocations : Relocations) (region : Region) : Option Int64 :=
  (relocations.find? (·.region = region)).map (·.shift)

end Relocations
end FrozenHeap
