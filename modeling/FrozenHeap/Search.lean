import FrozenHeap.Live
import Std.Data.TreeSet

/-!
The bound of graph searches. A search takes items from a worklist and expands each item of a finite
domain at most once; what it can still do shrinks with each expansion by more than it adds.
-/
namespace FrozenHeap

/-- The steps that are left for the items not visited yet, each with the cost of its expansion. -/
def outstanding (domain : List α) (visited : α → Bool) (cost : α → Nat) : Nat :=
  match domain with
  | [] => 0
  | item :: rest => (if visited item then 0 else cost item + 1) + outstanding rest visited cost

private theorem outstanding_mono (domain : List α) {visited later : α → Bool} (cost : α → Nat)
    (grows : ∀ item, visited item = true → later item = true) :
    outstanding domain later cost ≤ outstanding domain visited cost := by
  induction domain with
  | nil => exact Nat.le_refl _
  | cons head rest ih =>
    simp only [outstanding]
    have here : (if later head then 0 else cost head + 1) ≤
        (if visited head then 0 else cost head + 1) := by
      by_cases old : visited head = true
      · simp [old, grows head old]
      · rw [if_neg old]
        split <;> omega
    omega

/-- Visiting an item of the domain takes its cost and one step more. -/
theorem outstanding_visit {domain : List α} {visited later : α → Bool} (cost : α → Nat)
    {item : α} (member : item ∈ domain) (fresh : visited item = false) (done : later item = true)
    (grows : ∀ other, visited other = true → later other = true) :
    outstanding domain later cost + cost item + 1 ≤ outstanding domain visited cost := by
  induction domain with
  | nil => cases member
  | cons head rest ih =>
    have tail := outstanding_mono rest cost grows
    by_cases same : item = head
    · subst same
      simp only [outstanding, fresh, done]
      simp only [if_true, Bool.false_eq_true, if_false]
      omega
    · have below := ih ((List.mem_cons.mp member).resolve_left same)
      have here : (if later head then 0 else cost head + 1) ≤
          (if visited head then 0 else cost head + 1) := by
        by_cases old : visited head = true
        · simp [old, grows head old]
        · rw [if_neg old]
          split <;> omega
      simp only [outstanding]
      omega

namespace Live

def inventory (live : Live) : List ObjectId := (List.range live.objects.size).map ObjectId.mk

theorem mem_inventory {live : Live} {object : ObjectId} :
    object ∈ live.inventory ↔ object.index < live.objects.size := by
  simp only [inventory, List.mem_map, List.mem_range]
  constructor
  · rintro ⟨index, inside, rfl⟩
    exact inside
  · intro inside
    exact ⟨object.index, inside, rfl⟩

/-- The number of slots of an object; none if there is no such object. -/
def slotCount (live : Live) (object : ObjectId) : Nat :=
  (live.objects[object.index]?.map (·.slots.size)).getD 0

def shapeAt (live : Live) (index : Nat) (inside : index < live.objects.size) : ClassShape :=
  have known := live.classified index inside
  live.classes[live.objects[index].ofClass.index].shape

/-- What is left of a search through a heap's objects. -/
def unexplored (live : Live) (visited : ObjectId → Bool) : Nat :=
  outstanding live.inventory visited live.slotCount

theorem unexplored_visit {live : Live} {visited : ObjectId → Bool} (later : ObjectId → Bool)
    {object : ObjectId} (inside : object.index < live.objects.size) (fresh : visited object = false)
    (done : later object = true) (grows : ∀ other, visited other = true → later other = true) :
    live.unexplored later + live.objects[object.index].slots.size + 1 ≤
      live.unexplored visited := by
  have step := outstanding_visit live.slotCount (mem_inventory.mpr inside) fresh done grows
  have cost : live.slotCount object = live.objects[object.index].slots.size := by
    simp [slotCount, Array.getElem?_eq_getElem inside]
  rw [cost] at step
  exact step

end Live

/-- The targets of the references among some slots, in slot order. -/
def targetsOf (slots : Array Slot) : List ObjectId := slots.toList.filterMap Slot.target?

theorem length_targetsOf_le (slots : Array Slot) : (targetsOf slots).length ≤ slots.size := by
  rw [← Array.length_toList]
  exact List.length_filterMap_le _ _

theorem contains_insert_self {visited : Std.TreeSet ObjectId} {object : ObjectId} :
    (visited.insert object).contains object = true := by
  simp

theorem contains_insert_of_contains {visited : Std.TreeSet ObjectId} (object : ObjectId)
    {other : ObjectId}
    (member : visited.contains other = true) : (visited.insert object).contains other = true := by
  simp [Std.TreeSet.contains_insert, member]

end FrozenHeap
