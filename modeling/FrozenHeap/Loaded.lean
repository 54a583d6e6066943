import FrozenHeap.Archive
import FrozenHeap.RecordTable
import FrozenHeap.Resident

/-!
Loaded archives. The regions of an archive are made resident and fixed up; only then are objects
read from them, and classes served. A class that cannot be served is not found, and nothing is
stored for it.
-/
namespace FrozenHeap

/-- What a slot of an archived object, or a static field, holds. Objects are addresses of
this process. -/
inductive Value where
  | null
  | object (address : UInt64)
  | bits (word : UInt64)
  deriving DecidableEq, Repr, Inhabited

def Value.object? : Value → Option UInt64
  | object address => some address
  | _ => none

/-- An object as it is read from a resident region. -/
structure FrozenObject where
  region : Region
  address : UInt64
  className : String
  slots : Array Value
  deriving DecidableEq, Repr, Inhabited

namespace Resident

def valueOf (resident : Resident) (index : Nat) (word : UInt64) : Value :=
  if resident.marks.isSet index then if word = 0 then .null else .object word else .bits word

/-- Read the object whose header lies at an address. The region must be fixed up, hold all slots
that the header announces, and the header must name a class. -/
def objectAt? (resident : Resident) (names : Array String) (address : UInt64) :
    Option FrozenObject := do
  let distance := resident.distance address
  if resident.fixed = true ∧ distance % wordBytes = 0 then
    let index := distance / wordBytes
    let header ← resident.words[index]?
    let first := index + 1
    if first + headerSlots header ≤ resident.words.size then
      return {
        region := resident.region
        address := address
        className := ← names[headerClass header]?
        slots := (resident.words.extract first (first + headerSlots header)).mapIdx
          fun offset word => resident.valueOf (first + offset) word }
    else none
  else none

end Resident

/-- An archive in memory. -/
structure Loaded where
  /-- Without archiving, no class is served. -/
  enabled : Bool
  narrowing : Narrowing
  names : Array String
  table : RecordTable
  closed : Option Resident
  opened : Option Resident

/-- The process that takes in archived statics, with its state: it is asked whether it has a class,
and told what to store. -/
structure Host (State : Type) where
  resolve : State → String → Bool × State
  store : State → (className : String) → (offset : UInt32) → Value → Run State

namespace Loaded

def place (loaded : Loaded) (resident : Resident) : Loaded :=
  match resident.region with
  | .closed => { loaded with closed := some resident }
  | .opened => { loaded with opened := some resident }

/-- Load an archive: its table, and with archiving switched on its regions that are not empty. -/
def load (archive : Archive) (enabled : Bool) (mapper : Mapper) : Outcome Loaded := do
  let table ← match RecordTable.ofBytes archive.table with
    | .ok table => .ok table
    | .error cause => .error (.malformed cause)
  let loaded : Loaded := ⟨enabled, archive.narrowing, archive.names, table, none, none⟩
  if enabled then
    (archive.regions.filter fun image => !image.words.isEmpty).foldlM
      (fun loaded image => do return loaded.place (← Resident.map mapper image)) loaded
  else return loaded

def region? (loaded : Loaded) : Region → Option Resident
  | .closed => loaded.closed
  | .opened => loaded.opened

def residents (loaded : Loaded) : List Resident := Region.all.filterMap loaded.region?

def relocations (loaded : Loaded) : Relocations := loaded.residents.map (·.relocation)

def isUsable (loaded : Loaded) : Bool := loaded.enabled && loaded.residents.all (·.fixed)

/-- Fix up a region that is not fixed up yet, and add to the count. -/
def fixupRegion (loaded : Loaded) (count : FixupCount) (region : Region) :
    Run (Outcome FixupCount × Loaded) :=
  match loaded.region? region with
  | none => .ok (.ok count, loaded)
  | some resident =>
    if resident.fixed then .ok (.ok count, loaded)
    else
      match resident.fixup loaded.narrowing loaded.relocations with
      | .error breach => .error breach
      | .ok (outcome, resident) => .ok (outcome.map count.add, loaded.place resident)

/-- Fix up regions in this order. A region that fails ends it; those before stay fixed up. -/
def fixupRegions (loaded : Loaded) (count : FixupCount) :
    List Region → Run (Outcome FixupCount × Loaded)
  | [] => .ok (.ok count, loaded)
  | region :: rest =>
    match loaded.fixupRegion count region with
    | .error breach => .error breach
    | .ok (.error failure, loaded) => .ok (.error failure, loaded)
    | .ok (.ok count, loaded) => loaded.fixupRegions count rest

/-- Fix up all regions that are resident. At least one must be left to do, unless there are none. -/
def fixup (loaded : Loaded) : Run (Outcome FixupCount × Loaded) :=
  match loaded.residents with
  | [] => .ok (.ok {}, loaded)
  | first :: rest =>
    if first.fixed && rest.all (·.fixed) then .ok (.error (.alreadyFixedUp first.region), loaded)
    else loaded.fixupRegions {} Region.all

/-- The region that an address lies in, and its distance from the start of the region. -/
def locate? (loaded : Loaded) (address : UInt64) : Option (Region × Nat) :=
  (loaded.residents.find? (·.contains address)).map fun resident =>
    (resident.region, resident.distance address)

def objectAt? (loaded : Loaded) (address : UInt64) : Option FrozenObject := do
  (← loaded.residents.find? (·.contains address)).objectAt? loaded.names address

/-- Read the value of an entry. A reference must lead to an object in the region that the
entry names. -/
def valueOf? (loaded : Loaded) (entry : Entry) : Run (Option Value) :=
  match entry.kind with
  | .primitive => .ok (some (.bits entry.value))
  | .reference region =>
    match entry.narrow? with
    | none => .ok none
    | some narrow =>
      if narrow = 0 then .ok (some .null)
      else
        let address := loaded.narrowing.widen narrow
        if loaded.relocations.regionOf? address = some region then do
          match ← loaded.relocations.relocate? address with
          | none => return none
          | some live => return (loaded.objectAt? live).map fun object => .object object.address
        else .ok none

def valuesOf? (loaded : Loaded) : List Entry → Run (Option (List (UInt32 × Value)))
  | [] => .ok (some [])
  | entry :: rest => do
    match ← loaded.valueOf? entry with
    | none => return none
    | some value =>
      return (← loaded.valuesOf? rest).map ((entry.offset, value) :: ·)

/-- Ask for classes in order, up to the first that is refused. -/
def resolveAll (host : Host State) : State → List String → Bool × State
  | state, [] => (true, state)
  | state, name :: rest =>
    match host.resolve state name with
    | (true, state) => resolveAll host state rest
    | (false, state) => (false, state)

/-- Serve a class: resolve the classes of its record, read all its entries, and only then store
them. Answers whether the record is partial, or nothing if the class is not found. -/
def serve (loaded : Loaded) (host : Host State) (state : State) (name : String) :
    Run (Option Bool × State) :=
  if loaded.isUsable then
    match loaded.table.find? name with
    | none => .ok (none, state)
    | some record =>
      match resolveAll host state record.classes with
      | (false, state) => .ok (none, state)
      | (true, state) => do
        match ← loaded.valuesOf? record.entries with
        | none => return (none, state)
        | some values =>
          let state ← values.foldlM (fun state (offset, value) =>
            host.store state name offset value) state
          return (some record.isPartial, state)
  else .ok (none, state)

end Loaded
end FrozenHeap
