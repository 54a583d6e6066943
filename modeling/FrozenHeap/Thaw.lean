import FrozenHeap.Loaded
import FrozenHeap.Search

/-!
Thawing. Archived objects are copied into a live heap: first all that are reachable, with their
references left null, then the references. An address has at most one copy, so sharing and cycles
survive. A copy that cannot be completed is forgotten, though its objects stay in the heap.
-/
namespace FrozenHeap

namespace Loaded

def addresses (loaded : Loaded) : List UInt64 :=
  loaded.residents.flatMap fun resident =>
    (List.range resident.words.size).map fun index =>
      resident.live + UInt64.ofNat (wordBytes * index)

/-- The number of slots of the object at an address; none if there is no such object. -/
def slotCount (loaded : Loaded) (address : UInt64) : Nat :=
  ((loaded.objectAt? address).map (·.slots.size)).getD 0

private theorem mem_addresses {loaded : Loaded} {address : UInt64} {object : FrozenObject}
    (found : loaded.objectAt? address = some object) : address ∈ loaded.addresses := by
  unfold objectAt? at found
  obtain ⟨resident, spanning, found⟩ := Option.bind_eq_some_iff.mp found
  have listed := List.mem_of_find?_eq_some spanning
  have within := List.find?_some spanning
  unfold Resident.contains at within
  have above : resident.live.toNat ≤ address.toNat := by
    have both := (Bool.and_eq_true _ _).mp within
    exact UInt64.le_iff_toNat_le.mp (by simpa using both.1)
  unfold Resident.objectAt? at found
  simp only at found
  split at found
  · rename_i readable
    obtain ⟨header, present, _⟩ := Option.bind_eq_some_iff.mp found
    obtain ⟨inside, _⟩ := Array.getElem?_eq_some_iff.mp present
    refine List.mem_flatMap.mpr ⟨resident, listed, List.mem_map.mpr
      ⟨resident.distance address / wordBytes, List.mem_range.mpr inside, ?_⟩⟩
    have whole := readable.2
    have bound := address.toNat_lt
    unfold Resident.distance wordBytes at *
    apply UInt64.toNat_inj.mp
    rw [UInt64.toNat_add, UInt64.toNat_ofNat']
    omega
  · cases found

/-- What is left of a search through the addresses of words. -/
def unexplored (loaded : Loaded) (visited : UInt64 → Bool) : Nat :=
  outstanding loaded.addresses visited loaded.slotCount

theorem unexplored_visit {loaded : Loaded} {visited : UInt64 → Bool} (later : UInt64 → Bool)
    {address : UInt64} {object : FrozenObject} (found : loaded.objectAt? address = some object)
    (fresh : visited address = false) (done : later address = true)
    (grows : ∀ other, visited other = true → later other = true) :
    loaded.unexplored later + object.slots.size + 1 ≤ loaded.unexplored visited := by
  have step := outstanding_visit loaded.slotCount (mem_addresses found) fresh done grows
  rw [slotCount, found] at step
  exact step

end Loaded

namespace FrozenObject

/-- The addresses of the objects that an object refers to, in slot order. -/
def targets (object : FrozenObject) : List UInt64 := object.slots.toList.filterMap Value.object?

private theorem length_targets_le (object : FrozenObject) :
    object.targets.length ≤ object.slots.size := by
  rw [← Array.length_toList]
  exact List.length_filterMap_le _ _

/-- The slots of a copy, with its references still null. -/
def blankSlots (object : FrozenObject) : Array Slot :=
  object.slots.map fun value =>
    match value with
    | .bits word => .bits word
    | _ => .null

end FrozenObject

/-- The copies of archived objects in a live heap. -/
abbrev Thawed := Std.TreeMap UInt64 ObjectId

/-- A live heap that takes in archived objects and statics. -/
structure Thaw where
  heap : Live
  copies : Thawed
  /-- How many statics could not be stored. -/
  failed : Nat

namespace Thaw

def start (heap : Live) : Thaw := ⟨heap, ∅, 0⟩

/-- Allocate copies of all objects reachable from the addresses of a stack. Answers with all copies,
and with the new ones and the objects that they copy. -/
def allocate (loaded : Loaded) (heap : Live) (stack : List UInt64) (copies : Thawed)
    (made : Array (FrozenObject × ObjectId)) :
    Run (Option (Thawed × Array (FrozenObject × ObjectId)) × Live) :=
  match stack with
  | [] => .ok (some (copies, made), heap)
  | address :: rest =>
    if fresh : copies.contains address = false then
      match found : loaded.objectAt? address with
      | none => .ok (none, heap)
      | some object =>
        match heap.classNamed? object.className with
        | none => .ok (none, heap)
        | some ofClass =>
          match heap.alloc ofClass object.blankSlots with
          | .error breach => .error breach
          | .ok (copy, heap) =>
            have shrinks := Loaded.unexplored_visit (copies.insert address copy).contains
              found fresh (by simp)
              (fun other member => by simp [Std.TreeMap.contains_insert, member])
            allocate loaded heap (object.targets.reverse ++ rest) (copies.insert address copy)
              (made.push (object, copy))
    else allocate loaded heap rest copies made
termination_by stack.length + loaded.unexplored copies.contains
decreasing_by
  · have bound := object.length_targets_le
    simp only [List.length_append, List.length_reverse, List.length_cons]
    omega
  · simp only [List.length_cons]
    omega

/-- Let the references of a copy refer to the copies of their targets. -/
def link (copies : Thawed) (heap : Live) (object : FrozenObject) (copy : ObjectId) : Run Live :=
  object.slots.toList.zipIdx.foldlM (fun heap (value, index) =>
    match value with
    | .object address =>
      heap.setSlot copy index (copies[address]?.elim .null Slot.ref)
    | _ => .ok heap) heap

/-- Copy the object at an address with all that is reachable from it. -/
def object (thaw : Thaw) (loaded : Loaded) (address : UInt64) : Run (Option ObjectId × Thaw) :=
  match thaw with
  | ⟨heap, copies, failed⟩ =>
    match allocate loaded heap [address] copies #[] with
    | .error breach => .error breach
    | .ok (none, heap) => .ok (none, ⟨heap, copies, failed⟩)
    | .ok (some (grown, made), heap) => do
      let heap ← made.toList.foldlM (fun heap (object, copy) => link grown heap object copy) heap
      return (grown[address]?, ⟨heap, grown, failed⟩)

def fail (thaw : Thaw) : Thaw := { thaw with failed := thaw.failed + 1 }

/-- Store into a static field that may not exist. -/
def storeSlot (thaw : Thaw) (ofClass : ClassId) (offset : UInt32) (slot : Slot) : Run Thaw := do
  match ← thaw.heap.setStaticAt ofClass offset slot with
  | some heap => return { thaw with heap := heap }
  | none => return thaw.fail

/-- Store an archived value into a static field; an object is copied first. -/
def store (loaded : Loaded) (thaw : Thaw) (className : String) (offset : UInt32) (value : Value) :
    Run Thaw :=
  match thaw.heap.classNamed? className with
  | none => .ok thaw.fail
  | some ofClass =>
    match value with
    | .null => thaw.storeSlot ofClass offset .null
    | .bits word => thaw.storeSlot ofClass offset (.bits word)
    | .object address => do
      match ← thaw.object loaded address with
      | (some copy, thaw) => thaw.storeSlot ofClass offset (.ref copy)
      | (none, thaw) => return thaw.fail

/-- A live heap as the host of an archive: it has the classes that are defined in it. -/
def host (loaded : Loaded) : Host Thaw where
  resolve thaw name := ((thaw.heap.classNamed? name).isSome, thaw)
  store := store loaded

end Thaw
end FrozenHeap
