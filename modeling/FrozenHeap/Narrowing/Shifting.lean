import FrozenHeap.Archive.Measuring

/-!
Narrow references with machine words. A distance is scaled by moving its bits, and what lies off the
stride shows in the bits that moving it down would lose.
-/
namespace FrozenHeap.Narrowing

def shiftNarrow (base : UInt64) (shift : Nat) (address : UInt64) : Run Narrow :=
  if address = 0 then return 0
  else do
    ensure (base < address)
    let distance ← subWord address base
    let step ← shiftUp 1 shift
    let low ← subWord step 1
    ensure (distance &&& low = 0)
    let steps ← shiftDown distance shift
    ensure (steps.toNat < UInt32.size)
    return steps.toUInt32

def shiftWiden (base : UInt64) (shift : Nat) (narrow : Narrow) : Run UInt64 :=
  if narrow = 0 then return 0
  else do addWord base (← shiftUp narrow.toUInt64 shift)

def shiftTop (base : UInt64) (shift : Nat) : Run UInt64 := do
  addWord base (← shiftUp (UInt64.ofNat (UInt32.size - 1)) shift)

end FrozenHeap.Narrowing
