import FrozenHeap.Breach
import FrozenHeap.Identity

/-!
Live heaps. A live heap holds classes, each with its static fields, and objects, each with a class
and a row of slots. A slot is primitive bits, null, or a reference; nothing forces a reference to
name an object that exists.
-/
namespace FrozenHeap

/-- One field of an object or one static field of a class. -/
inductive Slot where
  | bits (word : UInt64)
  | null
  | ref (target : ObjectId)
  deriving DecidableEq, Repr, Inhabited

namespace Slot

/-- Null counts as a reference. -/
def isReference : Slot → Bool
  | bits _ => false
  | null => true
  | ref _ => true

def target? : Slot → Option ObjectId
  | ref target => some target
  | _ => none

end Slot

/-- What makes the instances of a class unfit for another process. -/
structure Traits where
  /-- Instances carry an identity that must not be duplicated. -/
  identitySensitive : Bool
  /-- Instances wrap a resource of their process. -/
  externalResource : Bool
  deriving DecidableEq, Repr, Inhabited

namespace Traits

def plain : Traits := ⟨false, false⟩

/-- Every trait of `other` is one of these. -/
def includes (traits other : Traits) : Bool :=
  (!other.identitySensitive || traits.identitySensitive) &&
    (!other.externalResource || traits.externalResource)

def union (left right : Traits) : Traits :=
  ⟨left.identitySensitive || right.identitySensitive,
    left.externalResource || right.externalResource⟩

/-- Instances may not be copied, whatever the policy. -/
def unfit (traits : Traits) : Bool := traits.identitySensitive || traits.externalResource

def render (traits : Traits) : String :=
  let names := (if traits.identitySensitive then ["\"IDENTITY_SENSITIVE\""] else []) ++
    (if traits.externalResource then ["\"EXTERNAL_RESOURCE\""] else [])
  "\x7b" ++ ", ".intercalate names ++ "\x7d"

end Traits

/-- The byte offset of a class's first static field. -/
def staticBase : Nat := 16

def slotBytes : Nat := 8

/-- The position of the static field at a byte offset, if fields start there. -/
def staticIndex? (offset : UInt32) : Option Nat :=
  if staticBase ≤ offset.toNat ∧ (offset.toNat - staticBase) % slotBytes = 0 then
    some ((offset.toNat - staticBase) / slotBytes)
  else none

/-- A declared static field. -/
structure StaticField where
  name : String
  offset : UInt32
  isReference : Bool
  deriving DecidableEq, Repr, Inhabited

/-- The slot that a static field starts with. -/
def StaticField.initial (field : StaticField) : Slot :=
  if field.isReference then .null else .bits 0

/-- A class's name, its traits, and its static fields at consecutive offsets. -/
structure ClassShape where
  name : String
  traits : Traits
  statics : Array StaticField
  placed : ∀ index (inside : index < statics.size),
    statics[index].offset.toNat = staticBase + slotBytes * index

namespace ClassShape

def named (name : String) (traits : Traits) : ClassShape where
  name := name
  traits := traits
  statics := #[]
  placed := fun _ inside => absurd inside (Nat.not_lt_zero _)

/-- Declare one more static field, behind the others. -/
def declare (shape : ClassShape) (name : String) (isReference : Bool) : Run ClassShape :=
  if room : staticBase + slotBytes * shape.statics.size < UInt32.size then
    let offset := UInt32.ofNat (staticBase + slotBytes * shape.statics.size)
    .ok { shape with
      statics := shape.statics.push ⟨name, offset, isReference⟩
      placed := fun index inside => by
        rw [Array.getElem_push]
        split
        · exact shape.placed _ _
        · have last : index = shape.statics.size := by
            rw [Array.size_push] at inside
            omega
          subst last
          show (UInt32.ofNat _).toNat = _
          rw [UInt32.toNat_ofNat', Nat.mod_eq_of_lt room] }
  else .error .overflow

def declareAll (shape : ClassShape) (fields : List (String × Bool)) : Run ClassShape :=
  fields.foldlM (fun shape (name, isReference) => shape.declare name isReference) shape

def static? (shape : ClassShape) (name : String) : Option StaticField :=
  shape.statics.find? (·.name == name)

end ClassShape

/-- A class with the values of its static fields. -/
structure LoadedClass where
  shape : ClassShape
  statics : Array Slot
  sized : statics.size = shape.statics.size

namespace LoadedClass

def ofShape (shape : ClassShape) : LoadedClass where
  shape := shape
  statics := shape.statics.map StaticField.initial
  sized := by simp

def static? (loaded : LoadedClass) (offset : UInt32) : Option Slot := do
  loaded.statics[← staticIndex? offset]?

/-- Store into the static field at an offset, if one starts there. -/
def store? (loaded : LoadedClass) (offset : UInt32) (slot : Slot) : Option LoadedClass := do
  let index ← staticIndex? offset
  if inside : index < loaded.statics.size then
    return { loaded with
      statics := loaded.statics.set index slot
      sized := by simp [loaded.sized] }
  else none

/-- The value of a declared static field stands at the field's position. -/
theorem static?_declared (loaded : LoadedClass) {index : Nat}
    (inside : index < loaded.shape.statics.size) :
    loaded.static? loaded.shape.statics[index].offset = loaded.statics[index]? := by
  have offset := loaded.shape.placed index inside
  have position : staticIndex? loaded.shape.statics[index].offset = some index := by
    rw [staticIndex?, offset, if_pos ⟨Nat.le_add_right _ _, by simp⟩]
    simp [slotBytes]
  simp [static?, position]

theorem shape_store? {loaded stored : LoadedClass} {offset : UInt32} {slot : Slot}
    (done : loaded.store? offset slot = some stored) : stored.shape = loaded.shape := by
  unfold store? at done
  cases found : staticIndex? offset with
  | none => simp [found] at done
  | some index =>
    simp only [found, Option.bind_eq_bind, Option.bind_some] at done
    split at done
    · cases done; rfl
    · cases done

end LoadedClass

structure LiveObject where
  ofClass : ClassId
  slots : Array Slot
  deriving DecidableEq, Repr, Inhabited

/-- Classes of distinct names, numbered in 32 bits, and objects whose classes exist. -/
structure Live where
  classes : Array LoadedClass
  objects : Array LiveObject
  distinct : (classes.toList.map (·.shape.name)).Nodup
  classified : ∀ index (inside : index < objects.size),
    objects[index].ofClass.index < classes.size
  numbered : classes.size ≤ UInt32.size

namespace Live

def empty : Live where
  classes := #[]
  objects := #[]
  distinct := by simp
  classified := fun _ inside => absurd inside (Nat.not_lt_zero _)
  numbered := Nat.zero_le _

instance : Inhabited Live := ⟨empty⟩

def classNamed? (live : Live) (name : String) : Option ClassId :=
  (live.classes.findIdx? (·.shape.name == name)).map ClassId.mk

private theorem not_mem_names {live : Live} {name : String}
    (absent : live.classNamed? name = none) :
    name ∉ live.classes.toList.map (·.shape.name) := by
  intro member
  obtain ⟨loaded, present, same⟩ := List.mem_map.mp member
  simp only [classNamed?, Option.map_eq_none_iff, Array.findIdx?_eq_none_iff] at absent
  have different := absent loaded (Array.mem_toList_iff.mp present)
  simp [same] at different

/-- Load a class whose name is still free, under the next number. -/
def load (live : Live) (shape : ClassShape) (free : live.classNamed? shape.name = none)
    (room : live.classes.size < UInt32.size) : Live where
  classes := live.classes.push (.ofShape shape)
  objects := live.objects
  distinct := by
    rw [Array.toList_push, List.map_append, List.nodup_append]
    refine ⟨live.distinct, by simp, ?_⟩
    intro name member other last
    have same : other = shape.name := by simpa [LoadedClass.ofShape] using last
    subst same
    intro equal
    subst equal
    exact not_mem_names free member
  classified := fun index inside => by
    have bound := live.classified index inside
    rw [Array.size_push]
    omega
  numbered := by
    rw [Array.size_push]
    omega

/-- Load a class. A name that is taken keeps its class. -/
def define (live : Live) (shape : ClassShape) : Run (ClassId × Live) :=
  match found : live.classNamed? shape.name with
  | some existing => .ok (existing, live)
  | none =>
    if room : live.classes.size < UInt32.size then
      .ok (⟨live.classes.size⟩, live.load shape found room)
    else .error .overflow

def alloc (live : Live) (ofClass : ClassId) (slots : Array Slot) : Run (ObjectId × Live) :=
  if known : ofClass.index < live.classes.size then
    if live.objects.size < UInt32.size then
      .ok (⟨live.objects.size⟩, { live with
        objects := live.objects.push ⟨ofClass, slots⟩
        classified := fun index inside => by
          rw [Array.getElem_push]
          split
          · exact live.classified _ _
          · exact known
        numbered := live.numbered })
    else .error .overflow
  else .error .outOfRange

def replaceSlots (live : Live) (object : ObjectId) (slots : Array Slot) : Live where
  classes := live.classes
  objects := live.objects.modify object.index ({ · with slots := slots })
  distinct := live.distinct
  classified := fun index inside => by
    have bound := live.classified index (by simpa using inside)
    rw [Array.getElem_modify]
    split
    · exact bound
    · exact bound
  numbered := live.numbered

def objectAt (live : Live) (object : ObjectId) : Run LiveObject := entryAt live.objects object.index

def classOf (live : Live) (object : ObjectId) : Run ClassId := do
  return (← live.objectAt object).ofClass

def slotsOf (live : Live) (object : ObjectId) : Run (Array Slot) := do
  return (← live.objectAt object).slots

def shapeOf (live : Live) (ofClass : ClassId) : Run ClassShape := do
  return (← entryAt live.classes ofClass.index).shape

theorem shapeOf_eq {live : Live} {ofClass : ClassId} (known : ofClass.index < live.classes.size) :
    live.shapeOf ofClass = .ok live.classes[ofClass.index].shape := by
  simp [shapeOf, entryAt, Array.getElem?_eq_getElem known, bind, Except.bind, pure, Except.pure]

def setSlot (live : Live) (object : ObjectId) (index : Nat) (slot : Slot) : Run Live := do
  let slots ← live.slotsOf object
  if inside : index < slots.size then
    return live.replaceSlots object (slots.set index slot)
  else .error .outOfRange

/-- Replace a class by one of the same shape. -/
def replaceClass (live : Live) (index : Nat) (inside : index < live.classes.size)
    (loaded : LoadedClass) (same : loaded.shape = live.classes[index].shape) : Live where
  classes := live.classes.set index loaded
  objects := live.objects
  distinct := by
    rw [Array.toList_set, List.map_set, same]
    have kept : (live.classes.toList.map (·.shape.name)).set index live.classes[index].shape.name =
        live.classes.toList.map (·.shape.name) := by
      apply List.ext_getElem (by simp)
      intro other _ _
      rw [List.getElem_set]
      split
      · rename_i here
        subst here
        simp
      · rfl
    rw [kept]
    exact live.distinct
  classified := fun other below => by
    have bound := live.classified other below
    rw [Array.size_set]
    exact bound
  numbered := by
    rw [Array.size_set]
    exact live.numbered

/-- Store into the static field at an offset. There may be no such field. -/
def setStaticAt (live : Live) (ofClass : ClassId) (offset : UInt32) (slot : Slot) :
    Run (Option Live) :=
  if inside : ofClass.index < live.classes.size then
    match stored : live.classes[ofClass.index].store? offset slot with
    | some loaded =>
      .ok (some (live.replaceClass _ inside loaded (LoadedClass.shape_store? stored)))
    | none => .ok none
  else .error .outOfRange

/-- Store into the first static field of this name. There may be no such field. -/
def setStatic (live : Live) (ofClass : ClassId) (name : String) (slot : Slot) :
    Run (Option Live) := do
  match (← live.shapeOf ofClass).static? name with
  | some field => live.setStaticAt ofClass field.offset slot
  | none => return none

/-- The value of the static field at an offset of a class. -/
def static? (live : Live) (ofClass : ClassId) (offset : UInt32) : Option Slot := do
  (← live.classes[ofClass.index]?).static? offset

/-- The value of the first static field of this name. -/
def staticNamed? (live : Live) (ofClass : ClassId) (name : String) : Run (Option Slot) := do
  match (← live.shapeOf ofClass).static? name with
  | some field => return live.static? ofClass field.offset
  | none => return none

end Live
end FrozenHeap
