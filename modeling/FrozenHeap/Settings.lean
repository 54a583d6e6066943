import FrozenHeap.Failure
import FrozenHeap.Narrowing

namespace FrozenHeap

structure Settings where
  enabled : Bool := true
  /-- The address of the closed region; the open one follows at a distance of `capacity` bytes. -/
  base : UInt64 := 0x700000000
  shift : Nat := 3
  /-- The bytes that each region may take. -/
  capacity : UInt64 := 67108864
  /-- Compare every copied graph with the live one. -/
  verify : Bool := true
  /-- Names of classes whose instances are never archived. -/
  excluded : List String := []
  /-- How many records share a bucket of the table. -/
  bucketSize : UInt64 := 4
  deriving DecidableEq, Repr

namespace Settings

def disabled : Settings := { enabled := false }

/-- The sum of two words, or the largest word. -/
def addSaturating (a b : UInt64) : UInt64 :=
  if a.toNat + b.toNat < UInt64.size then a + b else 0xffffffffffffffff

/-- The address that a region is laid out at. -/
def baseOf (settings : Settings) : Region → UInt64
  | .closed => settings.base
  | .opened => addSaturating settings.base settings.capacity

/-- The address behind both regions. -/
def limit (settings : Settings) : UInt64 :=
  addSaturating (settings.baseOf .opened) settings.capacity

def narrowing (settings : Settings) : Except Malformed Narrowing :=
  match Narrowing.of? settings.base settings.shift with
  | some narrowing => .ok narrowing
  | none => .error (.narrowing settings.base settings.shift)

/-- The narrowing of usable settings: both regions hold whole words and end within its range. -/
def validate (settings : Settings) : Except Malformed Narrowing :=
  match settings.narrowing with
  | .error cause => .error cause
  | .ok narrowing =>
    if settings.capacity.toNat = 0 ∨ settings.capacity.toNat % wordBytes ≠ 0 then
      .error (.capacity settings.capacity)
    else if narrowing.top < settings.limit then .error (.regionsEnd settings.limit narrowing.top)
    else if settings.bucketSize = 0 then .error .bucketSize
    else .ok narrowing

end Settings
end FrozenHeap
