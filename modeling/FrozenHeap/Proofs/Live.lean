import FrozenHeap.Live
import Mathlib.Data.List.Nodup

namespace FrozenHeap

private theorem staticIndex?_inj {offset other : UInt32} {index : Nat}
    (found : staticIndex? offset = some index) (same : staticIndex? other = some index) :
    offset = other := by
  unfold staticIndex? at found same
  split at found
  · split at same
    · rename_i first second
      cases found
      have distance := Option.some.inj same
      apply UInt32.toNat.inj
      unfold staticBase slotBytes at *
      omega
    · cases same
  · cases found

private theorem LoadedClass.store?_ok {loaded : LoadedClass} {offset : UInt32} {old : Slot}
    (declared : loaded.static? offset = some old) (slot : Slot) :
    ∃ after, loaded.store? offset slot = some after ∧ after.static? offset = some slot ∧
      ∀ other, other ≠ offset → after.static? other = loaded.static? other := by
  obtain ⟨index, found, value⟩ := Option.bind_eq_some_iff.mp declared
  obtain ⟨inside, _⟩ := Array.getElem?_eq_some_iff.mp value
  refine ⟨_, by simp only [store?, found, Option.bind_eq_bind, Option.bind_some,
    dif_pos inside]; rfl, ?_, ?_⟩
  · simp [static?, found, inside]
  · intro other different
    cases position : staticIndex? other with
    | none => simp [static?, position]
    | some place =>
      have apart : index ≠ place := by
        rintro rfl
        exact different (staticIndex?_inj position found)
      simp [static?, position, Array.getElem?_set_ne _ apart]

theorem ClassShape.nodup_offsets (shape : ClassShape) :
    (shape.statics.toList.map (·.offset)).Nodup := by
  rw [List.nodup_iff_injective_get]
  rintro ⟨left, first⟩ ⟨right, second⟩ same
  rw [List.length_map, Array.length_toList] at first second
  simp only [List.get_eq_getElem, List.getElem_map, Array.getElem_toList] at same
  have near := shape.placed left first
  have far := shape.placed right second
  rw [same] at near
  unfold slotBytes at near far
  exact Fin.ext (show left = right by omega)

namespace Live

theorem lt_of_classNamed? {heap : Live} {name : String} {ofClass : ClassId}
    (found : heap.classNamed? name = some ofClass) :
    ∃ inside : ofClass.index < heap.classes.size,
      heap.classes[ofClass.index].shape.name = name := by
  obtain ⟨index, here, rfl⟩ := Option.map_eq_some_iff.mp found
  obtain ⟨inside, same, _⟩ := Array.findIdx?_eq_some_iff_getElem.mp here
  exact ⟨inside, by simpa using same⟩

theorem classNamed?_of_getElem? {heap : Live} {index : Nat} {loaded : LoadedClass}
    (present : heap.classes[index]? = some loaded) :
    heap.classNamed? loaded.shape.name = some ⟨index⟩ := by
  obtain ⟨inside, rfl⟩ := Array.getElem?_eq_some_iff.mp present
  rw [classNamed?, Option.map_eq_some_iff]
  refine ⟨index, Array.findIdx?_eq_some_iff_getElem.mpr ⟨inside, by simp, ?_⟩, rfl⟩
  intro other before same
  have names := List.pairwise_iff_getElem.mp heap.distinct other index
    (by simp only [List.length_map, Array.length_toList]; omega) (by simpa using inside) before
  simp only [List.getElem_map, Array.getElem_toList] at names
  exact names (by simpa using same)

def shapes (heap : Live) : Array ClassShape := heap.classes.map (·.shape)

theorem classNamed?_of_shapes {before after : Live} (same : after.shapes = before.shapes)
    (name : String) : after.classNamed? name = before.classNamed? name := by
  have through (heap : Live) : heap.classNamed? name =
      (heap.shapes.findIdx? (·.name == name)).map ClassId.mk := by
    rw [classNamed?, shapes, Array.findIdx?_map]
    rfl
  rw [through, through, same]

theorem name_inj {heap : Live} {name other : String} {ofClass : ClassId}
    (left : heap.classNamed? name = some ofClass) (right : heap.classNamed? other = some ofClass) :
    name = other := by
  obtain ⟨inside, here⟩ := lt_of_classNamed? left
  obtain ⟨_, there⟩ := lt_of_classNamed? right
  exact here.symm.trans there

theorem classNamed?_congr {before after : Live} (same : after.classes = before.classes)
    (name : String) : after.classNamed? name = before.classNamed? name :=
  classNamed?_of_shapes (by rw [shapes, shapes, same]) name

theorem alloc_ok {heap after : Live} {ofClass : ClassId} {slots : Array Slot} {object : ObjectId}
    (done : heap.alloc ofClass slots = .ok (object, after)) :
    object = ⟨heap.objects.size⟩ ∧ after.classes = heap.classes ∧
      after.objects = heap.objects.push ⟨ofClass, slots⟩ := by
  unfold alloc at done
  split at done
  · split at done
    · cases done
      exact ⟨rfl, rfl, rfl⟩
    · cases done
  · cases done

theorem exists_alloc {heap : Live} {ofClass : ClassId} (known : ofClass.index < heap.classes.size)
    (room : heap.objects.size < UInt32.size) (slots : Array Slot) :
    ∃ object after, heap.alloc ofClass slots = .ok (object, after) := by
  rw [alloc, dif_pos known, if_pos room]
  exact ⟨_, _, rfl⟩

/-- The classes of the heap stay, and one object takes the place of another. -/
structure Replaced (before after : Live) (position : Nat) (object : LiveObject) : Prop where
  classes : after.classes = before.classes
  objects : after.objects = before.objects.setIfInBounds position object

theorem setSlot_ok {heap : Live} {object : ObjectId} {held : LiveObject}
    (found : heap.objects[object.index]? = some held) {index : Nat}
    (inside : index < held.slots.size) (slot : Slot) :
    ∃ after, heap.setSlot object index slot = .ok after ∧
      Replaced heap after object.index ⟨held.ofClass, held.slots.set index slot⟩ := by
  have slots : heap.slotsOf object = .ok held.slots := by
    simp [slotsOf, objectAt, entryAt, found, bind, Except.bind, pure, Except.pure]
  refine ⟨heap.replaceSlots object (held.slots.set index slot), ?_, rfl, ?_⟩
  · simp only [setSlot, slots, bind, Except.bind, dif_pos inside]
    rfl
  · apply Array.ext_getElem?
    intro other
    have bound := (Array.getElem?_eq_some_iff.mp found).1
    simp only [replaceSlots, Array.getElem?_modify, Array.getElem?_setIfInBounds, bound, if_true]
    split
    · rename_i here
      rw [← here, found]
      rfl
    · rfl

namespace Replaced

variable {first second third : Live} {position : Nat} {object other : LiveObject}

theorem self (held : first.objects[position]? = some object) :
    Replaced first first position object := by
  refine ⟨rfl, ?_⟩
  apply Array.ext_getElem?
  intro index
  rw [Array.getElem?_setIfInBounds]
  split
  · rename_i here
    rw [← here, held, if_pos (Array.getElem?_eq_some_iff.mp held).1]
  · rfl

theorem trans (front : Replaced first second position object)
    (back : Replaced second third position other) : Replaced first third position other where
  classes := back.classes.trans front.classes
  objects := by
    rw [back.objects, front.objects, Array.setIfInBounds_setIfInBounds]

theorem getElem?_self (replaced : Replaced first second position object)
    (inside : position < first.objects.size) : second.objects[position]? = some object := by
  rw [replaced.objects, Array.getElem?_setIfInBounds_self_of_lt inside]

theorem getElem?_of_ne (replaced : Replaced first second position object) {index : Nat}
    (different : position ≠ index) : second.objects[index]? = first.objects[index]? := by
  rw [replaced.objects, Array.getElem?_setIfInBounds_ne different]

theorem size (replaced : Replaced first second position object) :
    second.objects.size = first.objects.size := by
  rw [replaced.objects, Array.size_setIfInBounds]

end Replaced

/-- Storing into a static field that exists changes its value and nothing else. -/
theorem setStaticAt_ok {heap : Live} {ofClass : ClassId} {offset : UInt32}
    (declared : (heap.static? ofClass offset).isSome = true) (slot : Slot) :
    ∃ after, heap.setStaticAt ofClass offset slot = .ok (some after) ∧
      after.objects = heap.objects ∧ after.shapes = heap.shapes ∧
      after.static? ofClass offset = some slot ∧
      ∀ other place, ¬ (other = ofClass ∧ place = offset) →
        after.static? other place = heap.static? other place := by
  obtain ⟨old, value⟩ := Option.isSome_iff_exists.mp declared
  obtain ⟨loaded, present, held⟩ := Option.bind_eq_some_iff.mp value
  obtain ⟨inside, same⟩ := Array.getElem?_eq_some_iff.mp present
  subst same
  obtain ⟨stored, done, here, others⟩ := LoadedClass.store?_ok held slot
  have shape := LoadedClass.shape_store? done
  refine ⟨heap.replaceClass _ inside stored shape, ?_, rfl, ?_, ?_, ?_⟩
  · rw [setStaticAt, dif_pos inside]
    split
    · rename_i other again
      rw [done] at again
      cases again
      rfl
    · rename_i none_
      rw [done] at none_
      cases none_
  · apply Array.ext_getElem?
    intro index
    simp only [shapes, replaceClass, Array.getElem?_map, Array.getElem?_set]
    split
    · rename_i at_
      subst at_
      rw [Array.getElem?_eq_getElem inside, Option.map_some, Option.map_some, shape]
    · rfl
  · simp [static?, replaceClass, here]
  · intro other place different
    by_cases class_ : other = ofClass
    · subst class_
      have apart : place ≠ offset := fun equal => different ⟨rfl, equal⟩
      simp [static?, replaceClass, others place apart, inside]
    · have apart : ofClass.index ≠ other.index := by
        intro equal
        apply class_
        cases other
        cases ofClass
        exact congrArg ClassId.mk equal.symm
      simp only [static?, replaceClass, Array.getElem?_set_ne _ apart]

/-- Classes keep their names and numbers, objects stay as they are, and more may have come. -/
structure Grows (before after : Live) : Prop where
  classes : ∀ name ofClass, before.classNamed? name = some ofClass →
    after.classNamed? name = some ofClass
  size : before.objects.size ≤ after.objects.size
  objects : ∀ index, index < before.objects.size → after.objects[index]? = before.objects[index]?

namespace Grows

variable {first second third : Live}

theorem refl (heap : Live) : heap.Grows heap :=
  ⟨fun _ _ found => found, Nat.le_refl _, fun _ _ => rfl⟩

theorem trans (front : first.Grows second) (back : second.Grows third) : first.Grows third where
  classes name ofClass found := back.classes name ofClass (front.classes name ofClass found)
  size := Nat.le_trans front.size back.size
  objects index inside := by
    rw [back.objects index (Nat.lt_of_lt_of_le inside front.size), front.objects index inside]

end Grows

theorem grows_alloc {heap after : Live} {ofClass : ClassId} {slots : Array Slot} {object : ObjectId}
    (done : heap.alloc ofClass slots = .ok (object, after)) : heap.Grows after := by
  obtain ⟨_, classes, objects⟩ := alloc_ok done
  refine ⟨fun name known found => by rw [classNamed?_congr classes, found], ?_,
    fun index inside => ?_⟩
  · rw [objects, Array.size_push]
    exact Nat.le_succ _
  · rw [objects, Array.getElem?_push_lt inside, Array.getElem?_eq_getElem inside]

theorem grows_define {heap after : Live} {shape : ClassShape} {ofClass : ClassId}
    (done : heap.define shape = .ok (ofClass, after)) : heap.Grows after := by
  unfold define at done
  split at done
  · cases done
    exact .refl heap
  · split at done
    · cases done
      refine ⟨fun name known found => ?_, Nat.le_refl _, fun _ _ => rfl⟩
      obtain ⟨index, here, rfl⟩ := Option.map_eq_some_iff.mp found
      rw [classNamed?, load, Array.findIdx?_push, here]
      rfl
    · cases done

end Live
end FrozenHeap
