import FrozenHeap.Draft
import FrozenHeap.Screening
import Std.Data.ExtTreeMap
import Std.Data.ExtTreeSet

/-!
Walks. A walk goes through the graph behind an object, depth first and in slot order, and lays out a
copy of each object that has none yet. References between copies are only noted: they are patched
when the walk is over and every object on it has its copy.
-/
namespace FrozenHeap

abbrev Copies := Std.ExtTreeMap ObjectId Place

abbrev Seen := Std.ExtTreeSet ObjectId

/-- Enter the copy of an object that has none. -/
def registerCopy (copies : Copies) (object : ObjectId) (place : Place) : Run Copies := do
  ensure (object ∉ copies)
  return copies.insert object place

/-- A slot of a copy that is to refer to the copy of `target`. -/
structure Link where
  holder : Place
  slot : Nat
  target : ObjectId
  deriving DecidableEq, Repr, Inhabited

/-- The references of an object laid out at `holder`. -/
def linksOf (holder : Place) (slots : Array Slot) : List Link :=
  slots.toList.zipIdx.filterMap fun (slot, index) => slot.target?.map (⟨holder, index, ·⟩)

/-- A walk on its way, with what it must take back if it fails. -/
structure Walk where
  draft : Draft
  copies : Copies
  seen : Seen
  /-- How many objects the recording saw for the first time. -/
  walked : Nat
  /-- The objects that this walk copied. -/
  copied : Array ObjectId
  /-- The objects that the recording saw for the first time in this walk. -/
  met : Array ObjectId
  /-- The classes of the objects seen, in walk order. -/
  classes : Array (ClassId × String)
  links : Array Link

namespace Walk

def start (draft : Draft) (copies : Copies) (seen : Seen) (walked : Nat) : Walk :=
  ⟨draft, copies, seen, walked, #[], #[], #[], #[]⟩

def meet (walk : Walk) (object : ObjectId) : Walk :=
  { walk with
    seen := walk.seen.insert object
    walked := walk.walked + 1
    met := walk.met.push object }

def list (walk : Walk) (listed : ClassId × String) : Walk :=
  { walk with classes := walk.classes.push listed }

/-- Note the copy of an object, which was laid out in a draft, and the references it is to have. -/
def copy (walk : Walk) (draft : Draft) (object : ObjectId) (place : Place) (slots : Array Slot) :
    Walk :=
  { walk with
    draft := draft
    copies := walk.copies.insert object place
    copied := walk.copied.push object
    links := walk.links ++ linksOf place slots }

/-- Walk on from the objects of a stack, copying into one region. -/
def advance (live : Live) (screening : Screening) (region : Region) (stack : List ObjectId)
    (walk : Walk) : Step Walk Unit :=
  match stack with
  | [] => .ok (.ok (), walk)
  | object :: rest =>
    if inside : object.index < live.objects.size then
      let ofClass := live.objects[object.index].ofClass
      let slots := live.objects[object.index].slots
      let shape := live.shapeAt _ inside
      let cached := walk.copies[object]?
      if region = .closed ∧ cached.map (·.region) = some .opened then
        .ok (.error (.closedReferencesOpen shape.name), walk)
      else if fresh : walk.seen.contains object = false then
        let met := walk.meet object
        if screening.admits ofClass shape then
          match cached with
          | some _ =>
            advance live screening region (targetsOf slots ++ rest) (met.list (ofClass, shape.name))
          | none =>
            match met.draft.allocate region shape.name slots with
            | .error breach => .error breach
            | .ok (.error failure, draft) => .ok (.error failure, { met with draft := draft })
            | .ok (.ok place, draft) =>
              advance live screening region (targetsOf slots ++ rest)
                ((met.list (ofClass, shape.name)).copy draft object place slots)
        else .ok (.error (.unarchivable shape.name), met)
      else advance live screening region rest walk
    else .error .outOfRange
termination_by stack.length + live.unexplored walk.seen.contains
decreasing_by
  all_goals simp only [List.length_append, List.length_cons]
  · have bound := length_targetsOf_le live.objects[object.index].slots
    have step := Live.unexplored_visit (walk.seen.insert object).contains inside fresh (by simp)
      fun other member => by simp [Std.ExtTreeSet.contains_insert, member]
    exact Nat.lt_of_lt_of_le (by simp only [list, meet]; omega) (Nat.add_le_add_left step _)
  · have bound := length_targetsOf_le live.objects[object.index].slots
    have step := Live.unexplored_visit (walk.seen.insert object).contains inside fresh (by simp)
      fun other member => by simp [Std.ExtTreeSet.contains_insert, member]
    exact Nat.lt_of_lt_of_le (by simp only [copy, list, meet]; omega) (Nat.add_le_add_left step _)
  · omega

/-- Let each noted reference refer to the copy of its target. -/
def patchLinks (copies : Copies) (draft : Draft) (links : List Link) : Run Draft :=
  links.foldlM (fun draft link =>
    match copies[link.target]? with
    | some place => draft.patch link.holder link.slot (some place)
    | none => .error .precondition) draft

end Walk
end FrozenHeap
