import FrozenHeap.Proofs.Loaded.Entries
import FrozenHeap.Proofs.Thaw.Storing
import Mathlib.Data.Set.Function

namespace FrozenHeap

def Slot.rename (copy : ObjectId → ObjectId) : Slot → Slot
  | .bits word => .bits word
  | .null => .null
  | .ref target => .ref (copy target)

namespace Live

/-- One of these static fields leads to an object. -/
def Anchored (live : Live) (statics : ClassId → UInt32 → Prop) (object : ObjectId) : Prop :=
  ∃ ofClass offset root, statics ofClass offset ∧
    live.static? ofClass offset = some (.ref root) ∧ live.Reaches root object

/-- Every class of a heap is defined in another one, by a shape that is the same. -/
def DefinedIn (live target : Live) : Prop :=
  ∀ loaded ∈ live.classes, ∃ other ∈ target.classes, other.shape = loaded.shape

/-- All objects of a heap are copies of those that some static fields of another one lead to, and
these static fields refer to the copies. -/
structure Copied (live target : Live) (statics : ClassId → UInt32 → Prop)
    (copy : ObjectId → ObjectId) : Prop where
  bijective : Set.BijOn copy {object | live.Anchored statics object}
    {object | object.index < target.objects.size}
  objects : ∀ object, live.Anchored statics object → ∃ seen other,
    live.portrait? object = some seen ∧ target.portrait? (copy object) = some other ∧
      other.shape.name = seen.shape.name ∧ other.slots = seen.slots.map (Slot.rename copy)
  statics : ∀ ofClass offset, statics ofClass offset → ∃ loaded slot other,
    live.classes[ofClass.index]? = some loaded ∧ live.static? ofClass offset = some slot ∧
      target.classNamed? loaded.shape.name = some other ∧
      target.static? other offset = some (slot.rename copy)

theorem Anchored.target {live : Live} {statics : ClassId → UInt32 → Prop}
    {object target : ObjectId} (anchored : live.Anchored statics object)
    (refers : live.Refers object target) : live.Anchored statics target := by
  obtain ⟨ofClass, offset, root, listed, value, path⟩ := anchored
  exact ⟨ofClass, offset, root, listed, value, path.tail refers⟩

theorem exists_portrait {heap : Live} {object : ObjectId} {held : LiveObject} {name : String}
    (found : heap.objects[object.index]? = some held)
    (named : heap.classNamed? name = some held.ofClass) :
    ∃ seen, heap.portrait? object = some seen ∧ seen.shape.name = name ∧
      seen.slots = held.slots := by
  obtain ⟨inside, rfl⟩ := Array.getElem?_eq_some_iff.mp found
  obtain ⟨_, same⟩ := lt_of_classNamed? named
  exact ⟨_, portrait?_eq_some inside, same, rfl⟩

/-- Classes with the same static fields have them at the same offsets. -/
theorem isSome_static? {live target : Live} {ofClass other : ClassId} {loaded another : LoadedClass}
    (present : live.classes[ofClass.index]? = some loaded)
    (found : target.classes[other.index]? = some another)
    (same : another.shape.statics = loaded.shape.statics) {offset : UInt32}
    (declared : (live.static? ofClass offset).isSome = true) :
    (target.static? other offset).isSome = true := by
  obtain ⟨slot, value⟩ := Option.isSome_iff_exists.mp declared
  simp only [static?, present, Option.bind_eq_bind, Option.bind_some] at value
  obtain ⟨position, starts, held⟩ := Option.bind_eq_some_iff.mp value
  have inside := (Array.getElem?_eq_some_iff.mp held).1
  have room : position < another.statics.size := by
    rw [another.sized, same, ← loaded.sized]
    exact inside
  simp [static?, found, LoadedClass.static?, starts, room]

/-- A class that is defined in another heap has its static fields there. -/
theorem DefinedIn.static {live target : Live} (defined : live.DefinedIn target) {ofClass : ClassId}
    {loaded : LoadedClass} (present : live.classes[ofClass.index]? = some loaded) :
    ∃ other, target.classNamed? loaded.shape.name = some other ∧
      ∀ offset, (live.static? ofClass offset).isSome = true →
        (target.static? other offset).isSome = true := by
  obtain ⟨another, member, shape⟩ := defined loaded (Array.mem_of_getElem? present)
  obtain ⟨index, found⟩ := Array.mem_iff_getElem?.mp member
  exact ⟨⟨index⟩, shape ▸ classNamed?_of_getElem? found, fun _ =>
    isSome_static? present found (congrArg ClassShape.statics shape)⟩

end Live

namespace Linked

variable {draft : Draft} {copies : Copies} {live : Live} {tiles : List Tile}

theorem portrait?_tile (linked : Linked draft copies live.portrait? tiles) {tile : Tile}
    (member : tile ∈ tiles) : ∃ seen, live.portrait? tile.object = some seen ∧
      tile.name = seen.shape.name ∧ tile.slots = seen.slots := linked.remembered tile member

end Linked

/-- A loaded archive that hosts finished copies of all objects that some static fields lead to. -/
structure Loaded.Provides (loaded : Loaded) (draft : Draft) (copies : Copies) (live : Live)
    (tiles : List Tile) (statics : ClassId → UInt32 → Prop) : Prop where
  hosting : loaded.Hosting draft
  linked : Linked draft copies live.portrait? tiles
  few : draft.names.size ≤ UInt32.size
  rooted : ∀ ofClass offset root, statics ofClass offset →
    live.static? ofClass offset = some (.ref root) → root ∈ copies

namespace Loaded

/-- A wanted object has its copy at this address. -/
def Locates (loaded : Loaded) (copies : Copies) (wanted : ObjectId → Prop) (address : UInt64) :
    Prop :=
  ∃ object, wanted object ∧ loaded.addressOf copies object = address

/-- One of these static fields leads to the object whose copy has this address. -/
def Sought (loaded : Loaded) (copies : Copies) (live : Live) (statics : ClassId → UInt32 → Prop)
    (address : UInt64) : Prop :=
  ∃ object, live.Anchored statics object ∧ loaded.addressOf copies object = address

/-- One of these static fields has this class name, this offset and this value. -/
def Planned (loaded : Loaded) (copies : Copies) (live : Live) (statics : ClassId → UInt32 → Prop)
    (name : String) (offset : UInt32) (value : Value) : Prop :=
  ∃ ofClass slot, live.classNamed? name = some ofClass ∧ statics ofClass offset ∧
    live.static? ofClass offset = some slot ∧ value = slot.value (loaded.addressOf copies)

/-- What an object became in a live heap; some object if it was not copied. -/
def becomes (loaded : Loaded) (copies : Copies) (thaw : Thaw) (object : ObjectId) : ObjectId :=
  (thaw.copies[loaded.addressOf copies object]?).getD default

/-- A slot as it is stored refers to what its target became. -/
theorem slot_value {loaded : Loaded} {copies : Copies} {thaw : Thaw} {slot : Slot}
    (copied : ∀ target, slot = .ref target → loaded.addressOf copies target ∈ thaw.copies) :
    (slot.value (loaded.addressOf copies)).slot thaw.copies =
      slot.rename (loaded.becomes copies thaw) := by
  cases slot with
  | bits _ => rfl
  | null => rfl
  | ref target =>
    obtain ⟨copy, known⟩ := Thaw.mem_copies_iff.mp (copied target rfl)
    simp only [Slot.value, Value.slot, Slot.rename, becomes, known, Option.elim_some,
      Option.getD_some]

theorem functional_planned (loaded : Loaded) (copies : Copies) (live : Live)
    (statics : ClassId → UInt32 → Prop) : Thaw.Functional (loaded.Planned copies live statics) := by
  rintro name offset value other ⟨ofClass, slot, named, _, held, rfl⟩ ⟨another, last, again, _,
    same, rfl⟩
  rw [named] at again
  cases again
  rw [held] at same
  cases same
  rfl

namespace Provides

variable {loaded : Loaded} {draft : Draft} {copies : Copies} {live target : Live}
  {tiles : List Tile} {statics : ClassId → UInt32 → Prop}
  (provides : loaded.Provides draft copies live tiles statics)
include provides

theorem exists_tile {object : ObjectId} (anchored : live.Anchored statics object) :
    ∃ tile ∈ tiles, tile.object = object := by
  obtain ⟨ofClass, offset, root, listed, value, path⟩ := anchored
  exact provides.linked.tiling.mem_iff.mp
    (provides.linked.mem_of_reaches (provides.rooted ofClass offset root listed value) path)

/-- Each object that is led to can be read, as it is, at the address of its copy. -/
theorem object_at {object : ObjectId} (anchored : live.Anchored statics object) :
    ∃ seen region, live.portrait? object = some seen ∧
      loaded.fixedUp.objectAt? (loaded.addressOf copies object) =
        some ⟨region, loaded.addressOf copies object, seen.shape.name,
          seen.slots.map (Slot.value (loaded.addressOf copies))⟩ := by
  obtain ⟨tile, member, rfl⟩ := provides.exists_tile anchored
  obtain ⟨seen, found, name, slots⟩ := provides.linked.portrait?_tile member
  refine ⟨seen, tile.region, found, ?_⟩
  rw [← name, ← slots]
  exact provides.hosting.objectAt?_addressOf provides.linked provides.few member

section Wanted

variable {wanted : ObjectId → Prop}
  (anchored : ∀ object, wanted object → live.Anchored statics object)
include anchored

/-- What is wanted can be copied if all that it leads to is wanted, and its classes are defined. -/
theorem ready_of_wanted
    (closed : ∀ object other, wanted object → live.Refers object other → wanted other)
    (defined : ∀ object seen, wanted object → live.portrait? object = some seen →
      ∃ other, target.classNamed? seen.shape.name = some other) :
    Thaw.Ready loaded.fixedUp (loaded.Locates copies wanted) target where
  follows := by
    rintro _ object ⟨source, held, rfl⟩ read address refers
    obtain ⟨seen, region, found, here⟩ := provides.object_at (anchored source held)
    rw [read] at here
    cases here
    obtain ⟨slot, listed, same⟩ := Array.mem_map.mp (FrozenObject.mem_targets.mp refers)
    cases slot with
    | bits _ => cases same
    | null => cases same
    | ref target =>
      cases same
      exact ⟨target, closed source target held ⟨seen, found, listed⟩, rfl⟩
  read := by
    rintro _ ⟨source, held, rfl⟩
    obtain ⟨seen, region, found, here⟩ := provides.object_at (anchored source held)
    obtain ⟨other, named⟩ := defined source seen held found
    exact ⟨_, other, here, named⟩

/-- A copy of each wanted object has room where there is room for as many objects as
were archived. -/
theorem roomy_of_wanted {first : Nat} (few : first + tiles.length ≤ UInt32.size) :
    Thaw.Roomy first (loaded.Locates copies wanted) := by
  refine ⟨tiles.map fun tile => loaded.addressOf copies tile.object, ?_, ?_⟩
  · rintro _ ⟨object, held, rfl⟩
    obtain ⟨tile, member, rfl⟩ := provides.exists_tile (anchored object held)
    exact List.mem_map_of_mem member
  · rw [List.length_map]
    exact few

end Wanted

theorem ready (defined : live.DefinedIn target) :
    Thaw.Ready loaded.fixedUp (loaded.Sought copies live statics) target := by
  refine provides.ready_of_wanted (fun _ anchored => anchored)
    (fun _ _ anchored refers => anchored.target refers) fun object seen _ found => ?_
  obtain ⟨owner, present, shape⟩ := Live.shape_of_portrait? found
  obtain ⟨other, named, _⟩ := defined.static present
  exact ⟨other, shape ▸ named⟩

theorem roomy (fresh : target.objects = #[]) :
    Thaw.Roomy target.objects.size (loaded.Sought copies live statics) := by
  have few := provides.linked.tiling.length_lt
  exact provides.roomy_of_wanted (fun _ anchored => anchored) (by simpa [fresh] using few.le)

omit provides in
/-- A heap that defines the same classes can take what is planned. -/
theorem fits (defined : live.DefinedIn target) {name : String} {offset : UInt32} {value : Value}
    (planned : loaded.Planned copies live statics name offset value) :
    Thaw.Fits (loaded.Sought copies live statics) target name offset value := by
  obtain ⟨ofClass, slot, named, listed, held, rfl⟩ := planned
  obtain ⟨inside, same⟩ := Live.lt_of_classNamed? named
  obtain ⟨other, known, declared⟩ := defined.static (Array.getElem?_eq_getElem inside)
  constructor
  · rw [same] at known
    exact ⟨other, known, declared offset (Option.isSome_of_eq_some held)⟩
  · intro address equal
    cases slot with
    | bits _ => cases equal
    | null => cases equal
    | ref root =>
      cases equal
      exact ⟨root, ⟨ofClass, offset, root, listed, held, .refl⟩, rfl⟩

section Copied

variable {thaw : Thaw}
  (fit : Thaw.Fit loaded.fixedUp (loaded.Sought copies live statics) target thaw)
include fit

private theorem mem_copies_of_refers {object other : ObjectId}
    (anchored : live.Anchored statics object)
    (known : loaded.addressOf copies object ∈ thaw.copies) (refers : live.Refers object other) :
    loaded.addressOf copies other ∈ thaw.copies := by
  obtain ⟨copy, here⟩ := Thaw.mem_copies_iff.mp known
  obtain ⟨frozen, _, read, _, _, closed⟩ := fit.sound.complete _ copy here
  obtain ⟨seen, region, found, there⟩ := provides.object_at anchored
  obtain ⟨again, same, held⟩ := refers
  rw [found] at same
  cases same
  rw [read] at there
  cases there
  exact closed _ (FrozenObject.mem_targets.mpr (Array.mem_map.mpr ⟨.ref other, held, rfl⟩))

/-- When all that is planned is stored, all objects that are led to have copies. -/
theorem mem_copies (stored : ∀ name offset value,
    loaded.Planned copies live statics name offset value → Thaw.Stored thaw name offset value)
    {object : ObjectId} (anchored : live.Anchored statics object) :
    loaded.addressOf copies object ∈ thaw.copies := by
  obtain ⟨ofClass, offset, root, listed, value, path⟩ := anchored
  induction path with
  | refl =>
    obtain ⟨owner, present, _⟩ := Option.bind_eq_some_iff.mp value
    exact (stored _ offset _ ⟨ofClass, .ref root, Live.classNamed?_of_getElem? present, listed,
      value, rfl⟩).copied _ rfl
  | tail path refers ih =>
    exact provides.mem_copies_of_refers fit ⟨ofClass, offset, root, listed, value, path⟩ ih refers

/-- An object became the copy that has its slots, with the references renamed. -/
theorem copy_eq (stored : ∀ name offset value,
    loaded.Planned copies live statics name offset value → Thaw.Stored thaw name offset value)
    {object : ObjectId} (anchored : live.Anchored statics object) :
    thaw.copies[loaded.addressOf copies object]? = some (loaded.becomes copies thaw object) ∧
      ∃ seen other, live.portrait? object = some seen ∧
        thaw.heap.portrait? (loaded.becomes copies thaw object) = some other ∧
        other.shape.name = seen.shape.name ∧
        other.slots = seen.slots.map (Slot.rename (loaded.becomes copies thaw)) := by
  have known := provides.mem_copies fit stored anchored
  obtain ⟨copy, here⟩ := Thaw.mem_copies_iff.mp known
  have same : loaded.becomes copies thaw object = copy := by rw [becomes, here, Option.getD_some]
  obtain ⟨frozen, ofClass, read, named, held, _⟩ := fit.sound.complete _ copy here
  obtain ⟨seen, region, found, there⟩ := provides.object_at anchored
  rw [read] at there
  cases there
  obtain ⟨other, portrait, name, slots⟩ := Live.exists_portrait held named
  rw [same]
  refine ⟨here, seen, other, found, portrait, name, ?_⟩
  rw [slots, Array.map_map]
  apply Array.map_congr_left
  rintro slot listed
  refine slot_value fun target same => ?_
  exact provides.mem_copies fit stored (anchored.target ⟨seen, found, same ▸ listed⟩)

/-- When all that is planned is stored, the heap is a copy of what the static fields lead to. -/
theorem copied (fresh : target.objects = #[])
    (declared : ∀ ofClass offset, statics ofClass offset →
      (live.static? ofClass offset).isSome = true)
    (stored : ∀ name offset value,
      loaded.Planned copies live statics name offset value → Thaw.Stored thaw name offset value) :
    live.Copied thaw.heap statics (loaded.becomes copies thaw) := by
  refine ⟨⟨?_, ?_, ?_⟩, ?_, ?_⟩
  · intro object anchored
    obtain ⟨_, _, other, _, portrait, _⟩ := provides.copy_eq fit stored anchored
    exact Live.isSome_portrait?.mp (Option.isSome_of_eq_some portrait)
  · intro object anchored other reached same
    have left := (provides.copy_eq fit stored anchored).1
    have right := (provides.copy_eq fit stored reached).1
    rw [← same] at right
    obtain ⟨tile, member, rfl⟩ := provides.exists_tile anchored
    obtain ⟨another, there, rfl⟩ := provides.exists_tile reached
    rw [provides.hosting.situated.addressOf_inj provides.linked member there
      (fit.sound.injective _ _ _ left right)]
  · intro copy inside
    have first : target.objects.size ≤ copy.index := by simp [fresh]
    obtain ⟨address, known⟩ := fit.confined.covers copy.index first inside
    obtain ⟨object, anchored, rfl⟩ := fit.confined.held address (Thaw.mem_copies_iff.mpr ⟨_, known⟩)
    refine ⟨object, anchored, ?_⟩
    rw [becomes, known]
    rfl
  · exact fun object anchored => (provides.copy_eq fit stored anchored).2
  · intro ofClass offset listed
    obtain ⟨slot, value⟩ := Option.isSome_iff_exists.mp (declared ofClass offset listed)
    obtain ⟨owner, present, _⟩ := Option.bind_eq_some_iff.mp value
    have held := stored _ offset _ ⟨ofClass, slot, Live.classNamed?_of_getElem? present, listed,
      value, rfl⟩
    obtain ⟨other, named, here⟩ := held.held
    refine ⟨owner, slot, other, present, value, named, ?_⟩
    rw [here, slot_value fun target same => held.copied _ (by rw [same]; rfl)]

end Copied

end Provides

/-- Serve classes one after the other. -/
def serveAll (loaded : Loaded) (host : Host State) :
    State → List String → Run (List (Option Bool) × State)
  | state, [] => .ok ([], state)
  | state, name :: rest => do
    let (answer, state) ← loaded.serve host state name
    let (answers, state) ← loaded.serveAll host state rest
    return (answer :: answers, state)

/-- A class can be served: its classes are defined, and its entries are read as planned. -/
structure Servable (loaded : Loaded) (plan : String → UInt32 → Value → Prop) (heap : Live)
    (name : String) (record : Record) (values : List (UInt32 × Value)) : Prop where
  found : loaded.table.find? name = some record
  defined : ∀ other ∈ record.classes, (heap.classNamed? other).isSome = true
  read : loaded.valuesOf? record.entries = .ok (some values)
  wanted : ∀ pair ∈ values, plan name pair.1 pair.2

/-- Classes that can be served are served, and in the end all their values are stored. -/
theorem serveAll_ok {loaded : Loaded} {plan : String → UInt32 → Value → Prop}
    {holds : UInt64 → Prop} {heap : Live} {thaw : Thaw} (functional : Thaw.Functional plan)
    (planned : ∀ name offset value, plan name offset value →
      Thaw.Fits holds heap name offset value)
    (ready : Thaw.Ready loaded holds heap) (roomy : Thaw.Roomy heap.objects.size holds)
    (usable : loaded.isUsable = true) (record : String → Record)
    (values : String → List (UInt32 × Value)) (calls : List String)
    (servable : ∀ name ∈ calls, loaded.Servable plan heap name (record name) (values name))
    (fit : Thaw.Fit loaded holds heap thaw) :
    ∃ after, loaded.serveAll (Thaw.host loaded) thaw calls =
        .ok (calls.map fun name => some (record name).isPartial, after) ∧
      Thaw.Fit loaded holds heap after ∧
      (∀ name ∈ calls, ∀ pair ∈ values name, Thaw.Stored after name pair.1 pair.2) ∧
      ∀ other offset value, plan other offset value → Thaw.Stored thaw other offset value →
        Thaw.Stored after other offset value := by
  induction calls generalizing thaw with
  | nil => exact ⟨thaw, rfl, fit, fun _ member => (by cases member), fun _ _ _ _ stored => stored⟩
  | cons name rest ih =>
    have here := servable name List.mem_cons_self
    obtain ⟨⟨_, next⟩, served, rfl, fit, stored, kept⟩ :=
      (Thaw.delivers_serve plan functional planned
      ready usable here.found here.defined here.read here.wanted fit).exists_ok roomy
    obtain ⟨after, others, finished, all, still⟩ :=
      ih (fun other member => servable other (List.mem_cons_of_mem _ member)) fit
    refine ⟨after, ?_, finished, ?_, ?_⟩
    · simp only [serveAll, served, others, bind, Except.bind, pure, Except.pure, List.map_cons]
    · intro other member
      rcases List.mem_cons.mp member with rfl | behind
      · exact fun pair listed => still _ _ _ (here.wanted pair listed) (stored pair listed)
      · exact all other behind
    · exact fun other offset value agreed before =>
        still other offset value agreed (kept other offset value agreed before)

end Loaded
end FrozenHeap
