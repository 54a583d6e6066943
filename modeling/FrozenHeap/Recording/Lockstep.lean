import FrozenHeap.Draft
import FrozenHeap.Search

/-!
Lockstep. A copied graph is compared with the live graph it came from by walking both at once: each
live object is paired with one copy, and their slots must agree.
-/
namespace FrozenHeap

/-- A live object and the copy that is to agree with it. -/
abbrev Pairing := ObjectId × Place

namespace Draft

/-- Compare a slot with a cell. Two references lead to the next pairing. -/
def compareSlot (draft : Draft) (slot : Slot) (cell : Cell) :
    Run (Except Mismatch (Option Pairing)) :=
  match slot with
  | .bits word =>
    .ok (if word = cell.word ∧ cell.isReference = false then .ok none else .error .slot)
  | .null => .ok (if cell.word = 0 ∧ cell.isReference = true then .ok none else .error .slot)
  | .ref target =>
    if cell.isReference then
      if cell.word.toNat < UInt32.size then
        match draft.resolve? cell.word.toUInt32 with
        | .error breach => .error breach
        | .ok (some place) => .ok (.ok (some (target, place)))
        | .ok none => .ok (.error .unresolved)
      else .ok (.error .unresolved)
    else .ok (.error .slot)

/-- Compare slots with cells in order, up to the first that differ. -/
def compareSlots (draft : Draft) : List Slot → List Cell → Run (Except Mismatch (List Pairing))
  | slot :: slots, cell :: cells =>
    match draft.compareSlot slot cell with
    | .error breach => .error breach
    | .ok (.error mismatch) => .ok (.error mismatch)
    | .ok (.ok next) =>
      match draft.compareSlots slots cells with
      | .error breach => .error breach
      | .ok (.error mismatch) => .ok (.error mismatch)
      | .ok (.ok others) => .ok (.ok (next.toList ++ others))
  | _, _ => .ok (.ok [])

/-- Compare an object with its copy. The pairings of their references are what is left
to compare. -/
def compareObject (draft : Draft) (shape : ClassShape) (slots : Array Slot) (place : Place) :
    Run (Except Mismatch (List Pairing)) :=
  match draft.copyAt? place with
  | .error breach => .error breach
  | .ok none => .ok (.error .unreadable)
  | .ok (some copy) =>
    if copy.className ≠ shape.name then .ok (.error .className)
    else if copy.cells.size ≠ slots.size then .ok (.error .slotCount)
    else draft.compareSlots slots.toList copy.cells.toList

private theorem length_compareSlots_le {draft : Draft} {slots : List Slot} {cells : List Cell}
    {next : List Pairing} (done : draft.compareSlots slots cells = .ok (.ok next)) :
    next.length ≤ slots.length := by
  fun_induction compareSlots draft slots cells generalizing next with
  | case1 => cases done
  | case2 => cases done
  | case3 => cases done
  | case4 => cases done
  | case5 slot slots cell cells first _ others rest ih =>
    cases done
    have tail := ih rest
    cases first <;> simp <;> omega
  | case6 => cases done; simp

private theorem length_compareObject_le {draft : Draft} {shape : ClassShape} {slots : Array Slot}
    {place : Place} {next : List Pairing}
    (done : draft.compareObject shape slots place = .ok (.ok next)) : next.length ≤ slots.size := by
  unfold compareObject at done
  split at done
  · cases done
  · cases done
  · split at done
    · cases done
    · split at done
      · cases done
      · exact length_compareSlots_le done

/-- Compare on from the pairings of a stack; `paired` holds the objects met before. -/
def lockstep (draft : Draft) (live : Live) (stack : List Pairing)
    (paired : Std.TreeMap ObjectId Place) : Run (Outcome Unit) :=
  match stack with
  | [] => .ok (.ok ())
  | (object, place) :: rest =>
    if inside : object.index < live.objects.size then
      let shape := live.shapeAt _ inside
      match fresh : paired[object]? with
      | some other =>
        if other = place then lockstep draft live rest paired
        else .ok (.error (.verificationFailed object shape.name .sharedTwice))
      | none =>
        match compared : draft.compareObject shape live.objects[object.index].slots place with
        | .error breach => .error breach
        | .ok (.error mismatch) =>
          .ok (.error (.verificationFailed object shape.name mismatch))
        | .ok (.ok next) => lockstep draft live (next.reverse ++ rest) (paired.insert object place)
    else .error .outOfRange
termination_by stack.length + live.unexplored paired.contains
decreasing_by
  · simp only [List.length_cons]; omega
  · have bound := length_compareObject_le compared
    have absent : paired.contains object = false := by
      rw [Std.TreeMap.contains_eq_isSome_getElem?, fresh]; rfl
    have step := Live.unexplored_visit (paired.insert object place).contains inside absent
      (by simp) (fun other member => by simp [Std.TreeMap.contains_insert, member])
    simp only [List.length_append, List.length_reverse, List.length_cons]
    omega

/-- Does the graph of copies at `place` agree with the live graph behind an object? -/
def verify (draft : Draft) (live : Live) (root : ObjectId) (place : Place) : Run (Outcome Unit) :=
  draft.lockstep live [(root, place)] ∅

end Draft
end FrozenHeap
