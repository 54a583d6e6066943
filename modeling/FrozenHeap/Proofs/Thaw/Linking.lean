import FrozenHeap.Proofs.Live
import FrozenHeap.Thaw

namespace FrozenHeap

/-- The slot of a copy. A reference leads to the copy of its target, if that has one. -/
def Value.slot (copies : Thawed) : Value → Slot
  | .null => .null
  | .bits word => .bits word
  | .object address => (copies[address]?).elim .null .ref

theorem Thaw.mem_copies_iff {copies : Thawed} {address : UInt64} :
    address ∈ copies ↔ ∃ copy, copies[address]? = some copy := by
  rw [Std.TreeMap.mem_iff_isSome_getElem?, Option.isSome_iff_exists]

private theorem FrozenObject.blankSlots_eq (object : FrozenObject) :
    object.blankSlots = object.slots.map (Value.slot ∅) := by
  unfold blankSlots
  congr 1
  funext value
  cases value <;> simp [Value.slot]

theorem FrozenObject.mem_targets {object : FrozenObject} {target : UInt64} :
    target ∈ object.targets ↔ Value.object target ∈ object.slots := by
  rw [targets, List.mem_filterMap]
  constructor
  · rintro ⟨value, member, found⟩
    cases value with
    | object other =>
      cases found
      exact Array.mem_toList_iff.mp member
    | null => cases found
    | bits _ => cases found
  · intro member
    exact ⟨.object target, Array.mem_toList_iff.mpr member, rfl⟩

/-- The slots of a copy stay as they are when more objects are copied. -/
theorem FrozenObject.slots_congr {object : FrozenObject} {copies grown : Thawed}
    (same : ∀ target ∈ object.targets, grown[target]? = copies[target]?) :
    object.slots.map (Value.slot grown) = object.slots.map (Value.slot copies) := by
  apply Array.map_congr_left
  intro value member
  cases value with
  | null => rfl
  | bits _ => rfl
  | object target =>
    rw [Value.slot, Value.slot, same target (mem_targets.mpr member)]

namespace Thaw

private theorem link_values (copies : Thawed) {copy : ObjectId} {ofClass : ClassId}
    (values : List Value) (front : List Slot) (heap : Live)
    (held : heap.objects[copy.index]? =
      some ⟨ofClass, (front ++ values.map (Value.slot ∅)).toArray⟩) :
    ∃ after, (values.zipIdx front.length).foldlM (fun (heap : Live) (value, index) =>
        match value with
        | .object address => heap.setSlot copy index (copies[address]?.elim .null Slot.ref)
        | _ => .ok heap) heap = .ok after ∧
      Live.Replaced heap after copy.index
        ⟨ofClass, (front ++ values.map (Value.slot copies)).toArray⟩ := by
  induction values generalizing front heap with
  | nil => exact ⟨heap, rfl, .self held⟩
  | cons value rest ih =>
    have inside := (Array.getElem?_eq_some_iff.mp held).1
    -- Whatever the value is, its slot is filled in before the others are.
    have step : ∃ next, (match value with
        | .object address => heap.setSlot copy front.length (copies[address]?.elim .null Slot.ref)
        | _ => .ok heap) = .ok next ∧ Live.Replaced heap next copy.index
          ⟨ofClass, (front ++ value.slot copies :: rest.map (Value.slot ∅)).toArray⟩ := by
      cases value with
      | null => exact ⟨heap, rfl, .self held⟩
      | bits _ => exact ⟨heap, rfl, .self held⟩
      | object address =>
        have within : front.length < (front ++ (Value.object address :: rest).map
            (Value.slot ∅)).toArray.size := by simp
        obtain ⟨next, done, replaced⟩ :=
          Live.setSlot_ok held within (copies[address]?.elim .null Slot.ref)
        refine ⟨next, done, ?_⟩
        simpa [Value.slot] using replaced
    obtain ⟨next, done, replaced⟩ := step
    have filled := replaced.getElem?_self inside
    obtain ⟨after, others, behind⟩ := ih (front ++ [value.slot copies]) next (by simpa using filled)
    refine ⟨after, ?_, replaced.trans (by simpa using behind)⟩
    rw [List.zipIdx_cons, List.foldlM_cons]
    exact bind_eq_ok_iff.mpr ⟨next, done, by simpa using others⟩

private theorem link_ok (copies : Thawed) {heap : Live} {object : FrozenObject} {copy : ObjectId}
    {ofClass : ClassId} (held : heap.objects[copy.index]? = some ⟨ofClass, object.blankSlots⟩) :
    ∃ after, link copies heap object copy = .ok after ∧
      Live.Replaced heap after copy.index ⟨ofClass, object.slots.map (Value.slot copies)⟩ := by
  have list (refs : Thawed) : ([] ++ object.slots.toList.map (Value.slot refs)).toArray =
      object.slots.map (Value.slot refs) := by
    rw [List.nil_append, ← Array.toList_map, Array.toArray_toList]
  rw [object.blankSlots_eq, ← list] at held
  obtain ⟨after, done, replaced⟩ := link_values copies object.slots.toList [] heap held
  rw [list] at replaced
  exact ⟨after, done, replaced⟩

/-- Linking some copies fills in their slots and leaves the other objects alone. -/
theorem links_ok (copies : Thawed) (made : List (FrozenObject × ObjectId)) (heap : Live)
    (distinct : (made.map (·.2)).Nodup)
    (held : ∀ pair ∈ made, ∃ ofClass,
      heap.objects[pair.2.index]? = some ⟨ofClass, pair.1.blankSlots⟩) :
    ∃ after, made.foldlM (fun heap (object, copy) => link copies heap object copy) heap =
      .ok after ∧ after.classes = heap.classes ∧ after.objects.size = heap.objects.size ∧
      (∀ index, ⟨index⟩ ∉ made.map (·.2) → after.objects[index]? = heap.objects[index]?) ∧
      ∀ pair ∈ made, ∀ ofClass,
        heap.objects[pair.2.index]? = some ⟨ofClass, pair.1.blankSlots⟩ →
        after.objects[pair.2.index]? = some ⟨ofClass, pair.1.slots.map (Value.slot copies)⟩ := by
  induction made generalizing heap with
  | nil => exact ⟨heap, rfl, rfl, rfl, fun _ _ => rfl, fun _ member => by cases member⟩
  | cons pair rest ih =>
    rw [List.map_cons, List.nodup_cons] at distinct
    obtain ⟨ofClass, here⟩ := held pair List.mem_cons_self
    obtain ⟨next, linked, replaced⟩ := link_ok copies here
    have apart (other : FrozenObject × ObjectId) (member : other ∈ rest) :
        next.objects[other.2.index]? = heap.objects[other.2.index]? := by
      apply replaced.getElem?_of_ne
      intro same
      apply distinct.1
      have equal : pair.2 = other.2 := by
        cases first : pair.2
        cases last : other.2
        rw [first, last] at same
        exact congrArg ObjectId.mk same
      rw [equal]
      exact List.mem_map_of_mem member
    obtain ⟨after, others, classes, size, untouched, filled⟩ := ih next distinct.2
      fun other member => by
        rw [apart other member]
        exact held other (List.mem_cons_of_mem _ member)
    refine ⟨after, ?_, classes.trans replaced.classes, size.trans replaced.size, ?_, ?_⟩
    · rw [List.foldlM_cons]
      exact bind_eq_ok_iff.mpr ⟨next, linked, others⟩
    · intro index absent
      rw [List.map_cons, List.mem_cons, not_or] at absent
      rw [untouched index absent.2]
      apply replaced.getElem?_of_ne
      intro same
      exact absent.1 (by rw [← same])
    · intro other member ofClass there
      rcases List.mem_cons.mp member with rfl | behind
      · rw [here] at there
        cases there
        rw [untouched _ distinct.1]
        exact replaced.getElem?_self (Array.getElem?_eq_some_iff.mp here).1
      · exact filled other behind ofClass (by rw [apart other behind, there])

end Thaw
end FrozenHeap
