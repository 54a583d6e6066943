import FrozenHeap.Search
import Mathlib.Logic.Relation

namespace FrozenHeap

/-- An object as a search sees it. -/
structure Portrait where
  ofClass : ClassId
  shape : ClassShape
  slots : Array Slot

theorem mem_targetsOf {slots : Array Slot} {target : ObjectId} :
    target ∈ targetsOf slots ↔ Slot.ref target ∈ slots := by
  rw [targetsOf, List.mem_filterMap]
  constructor
  · rintro ⟨slot, member, found⟩
    cases slot with
    | ref other =>
      cases found
      exact Array.mem_toList_iff.mp member
    | bits _ => cases found
    | null => cases found
  · intro member
    exact ⟨.ref target, Array.mem_toList_iff.mpr member, rfl⟩

namespace Live

/-- What a search sees of an object, if there is one. -/
def portrait? (live : Live) (object : ObjectId) : Option Portrait :=
  if inside : object.index < live.objects.size then
    some ⟨live.objects[object.index].ofClass, live.shapeAt _ inside,
      live.objects[object.index].slots⟩
  else none

theorem portrait?_eq_some {live : Live} {object : ObjectId}
    (inside : object.index < live.objects.size) :
    live.portrait? object = some ⟨live.objects[object.index].ofClass, live.shapeAt _ inside,
      live.objects[object.index].slots⟩ := dif_pos inside

theorem isSome_portrait? {live : Live} {object : ObjectId} :
    (live.portrait? object).isSome = true ↔ object.index < live.objects.size := by
  unfold portrait?
  split <;> simp [*]

private theorem objects_of_portrait? {live : Live} {object : ObjectId} {seen : Portrait}
    (found : live.portrait? object = some seen) :
    live.objects[object.index]? = some ⟨seen.ofClass, seen.slots⟩ := by
  have inside := isSome_portrait?.mp (Option.isSome_of_eq_some found)
  rw [portrait?_eq_some inside] at found
  cases found
  exact Array.getElem?_eq_getElem inside

/-- The shape that a search sees is the one of the object's class. -/
theorem shape_of_portrait? {live : Live} {object : ObjectId} {seen : Portrait}
    (found : live.portrait? object = some seen) :
    ∃ loaded, live.classes[seen.ofClass.index]? = some loaded ∧ loaded.shape = seen.shape := by
  have inside := isSome_portrait?.mp (Option.isSome_of_eq_some found)
  rw [portrait?_eq_some inside] at found
  cases found
  exact ⟨_, Array.getElem?_eq_getElem (live.classified _ inside), rfl⟩

theorem exists_static {live : Live} {ofClass : ClassId} {loaded : LoadedClass} {field : StaticField}
    (present : live.classes[ofClass.index]? = some loaded)
    (declared : field ∈ loaded.shape.statics) :
    ∃ slot, live.static? ofClass field.offset = some slot := by
  obtain ⟨index, inside, rfl⟩ := Array.getElem_of_mem declared
  have position : index < loaded.statics.size := by
    rw [loaded.sized]
    exact inside
  exact ⟨loaded.statics[index], by simp [static?, present, loaded.static?_declared, position]⟩

/-- A slot of the first object holds a reference to the second. -/
def Refers (live : Live) (holder target : ObjectId) : Prop :=
  ∃ seen, live.portrait? holder = some seen ∧ Slot.ref target ∈ seen.slots

/-- References lead from the first object to the second. -/
def Reaches (live : Live) : ObjectId → ObjectId → Prop := Relation.ReflTransGen live.Refers

/-- Every reference, of an object or a static field, names an object that exists. -/
structure Closed (live : Live) : Prop where
  slots : ∀ holder target, live.Refers holder target → target.index < live.objects.size
  statics : ∀ loaded ∈ live.classes, ∀ target, Slot.ref target ∈ loaded.statics →
    target.index < live.objects.size

namespace Closed

variable {live : Live} (closed : live.Closed)
include closed

theorem static {ofClass : ClassId} {offset : UInt32} {root : ObjectId}
    (found : live.static? ofClass offset = some (.ref root)) :
    root.index < live.objects.size := by
  obtain ⟨loaded, present, found⟩ := Option.bind_eq_some_iff.mp found
  obtain ⟨index, _, found⟩ := Option.bind_eq_some_iff.mp found
  exact closed.statics loaded (Array.mem_of_getElem? present) root (Array.mem_of_getElem? found)

theorem target {object : ObjectId} {seen : Portrait} (found : live.portrait? object = some seen)
    {target : ObjectId} (refers : Slot.ref target ∈ seen.slots) :
    target.index < live.objects.size := closed.slots object target ⟨seen, found, refers⟩

theorem reached {object other : ObjectId} (inside : object.index < live.objects.size)
    (path : live.Reaches object other) : other.index < live.objects.size := by
  induction path with
  | refl => exact inside
  | tail _ edge _ => exact closed.slots _ _ edge

end Closed

/-- To see that a heap has no dangling references, look at each object and each class. -/
theorem closed_of_targets {live : Live}
    (objects : ∀ object ∈ live.objects, ∀ target ∈ targetsOf object.slots,
      target.index < live.objects.size)
    (classes : ∀ loaded ∈ live.classes, ∀ target ∈ targetsOf loaded.statics,
      target.index < live.objects.size) : live.Closed where
  slots holder target := by
    rintro ⟨seen, found, refers⟩
    exact objects _ (Array.mem_of_getElem? (objects_of_portrait? found)) target
      (mem_targetsOf.mpr refers)
  statics loaded member target refers := classes loaded member target (mem_targetsOf.mpr refers)

/-- Two nodes that refer to each other; the first one is the value of a static field. -/
def ring : Live where
  classes := #[{
    shape := {
      name := "Node"
      traits := .plain
      statics := #[⟨"first", 16, true⟩, ⟨"count", 24, false⟩]
      placed := by decide }
    statics := #[.ref ⟨0⟩, .bits 2]
    sized := rfl }]
  objects := #[⟨⟨0⟩, #[.ref ⟨1⟩, .bits 7, .null]⟩, ⟨⟨0⟩, #[.ref ⟨0⟩, .ref ⟨1⟩]⟩]
  distinct := by decide
  classified := by decide
  numbered := by decide

theorem closed_ring : ring.Closed := closed_of_targets (by decide) (by decide)

end Live
end FrozenHeap
