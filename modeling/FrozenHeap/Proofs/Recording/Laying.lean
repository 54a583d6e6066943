import FrozenHeap.Proofs.Recording.Tiling
import Mathlib.Data.List.Perm.Subperm

/-! The invariant of a walk. What it has laid out so far, behind the copies of earlier walks, is a
tiling; every object that a new copy is to refer to is still on the stack or has its copy. -/

namespace FrozenHeap

/-- An object has a copy, and copies in this region may refer to it. -/
def Settled (region : Region) (copies : Copies) (target : ObjectId) : Prop :=
  ∃ place, copies[target]? = some place ∧ (region = .closed → place.region = .closed)

def Tile.Depicts (tile : Tile) (seen : Portrait) : Prop :=
  tile.name = seen.shape.name ∧ tile.slots = seen.slots

theorem Settled.insert {region : Region} {copies : Copies} {target object : ObjectId}
    (settled : Settled region copies target) (uncached : copies[object]? = none) (place : Place) :
    Settled region (copies.insert object place) target := by
  obtain ⟨known, found, closed⟩ := settled
  refine ⟨known, ?_, closed⟩
  rw [Std.ExtTreeMap.getElem?_insert]
  split
  · rename_i same
    rw [Std.LawfulEqOrd.eq_of_compare same, found] at uncached
    cases uncached
  · exact found

/-- Class names are used once each, and all of them are known. -/
structure Draft.Named (known : List String) (draft : Draft) : Prop where
  distinct : draft.names.toList.Nodup
  known : ∀ name ∈ draft.names, name ∈ known

namespace Draft.Named

variable {known : List String} {draft after : Draft}

theorem size_le (named : draft.Named known) : draft.names.size ≤ known.length := by
  rw [← Array.length_toList]
  apply List.Subperm.length_le (List.subperm_of_subset named.distinct ?_)
  intro name member
  exact named.known name (Array.mem_toList_iff.mp member)

theorem nameIndex (named : draft.Named known) {name : String} (member : name ∈ known) :
    (draft.nameIndex name).2.Named known := by
  rcases (draft.nameIndex_cases name).1 with ⟨_, same⟩ | ⟨absent, same⟩
  · rw [same]
    exact named
  · rw [same]
    constructor
    · rw [Array.toList_push]
      apply List.Nodup.append named.distinct (List.nodup_singleton name)
      intro other old last
      rw [List.mem_singleton] at last
      exact absent (last ▸ Array.mem_toList_iff.mp old)
    · intro other listed
      rcases Array.mem_push.mp listed with old | last
      · exact named.known other old
      · exact last ▸ member

theorem allocate (named : draft.Named known) {region : Region} {name : String}
    {slots : Array Slot} {outcome : Outcome Place} (member : name ∈ known)
    (done : draft.allocate region name slots = .ok (outcome, after)) : after.Named known := by
  unfold Draft.allocate at done
  simp only at done
  split at done
  · cases done
    exact named
  · split at done
    · cases done
    · split at done
      · cases done
      · cases done
        have added := named.nameIndex member
        exact ⟨by rw [names_modifyImage]; exact added.distinct, by
          rw [names_modifyImage]
          exact added.known⟩

end Draft.Named

def Live.classNames (live : Live) : List String := live.classes.toList.map (·.shape.name)

theorem Live.name_mem_of_portrait? {live : Live} {object : ObjectId} {seen : Portrait}
    (found : live.portrait? object = some seen) : seen.shape.name ∈ live.classNames := by
  obtain ⟨loaded, present, same⟩ := shape_of_portrait? found
  exact List.mem_map.mpr ⟨loaded, Array.mem_toList_iff.mpr (Array.mem_of_getElem? present),
    by rw [same]⟩

namespace Walk

/-- A walk from `root` has laid out the fresh tiles, behind the old ones of the draft before. -/
structure Laying (live : Live) (region : Region) (before : Draft) (root : ObjectId)
    (old : List Tile) (stack : List ObjectId) (walk : Walk) (fresh : List Tile) : Prop where
  tiling : Tiling walk.draft walk.copies (old ++ fresh)
  grown : before.Extends walk.draft
  blank : ∀ tile ∈ fresh, walk.draft.Shows Slot.blank tile
  inside : ∀ tile ∈ fresh, tile.region = region
  portrayed : ∀ tile ∈ fresh, ∃ seen, live.portrait? tile.object = some seen ∧ tile.Depicts seen
  links : walk.links.toList =
    fresh.flatMap fun tile => linksOf (tile.place before) tile.slots
  seen : ∀ object, walk.seen.contains object = true → object ∈ walk.copies
  pending : ∀ target, (target = root ∨ ∃ tile ∈ fresh, Slot.ref target ∈ tile.slots) →
    target ∈ stack ∨ Settled region walk.copies target

theorem contains_meet {walk : Walk} {object other : ObjectId} :
    (walk.meet object).seen.contains other = true ↔
      object = other ∨ walk.seen.contains other = true := by
  simp [meet, Std.ExtTreeSet.contains_insert]

private theorem settled_of_free {region : Region} {copies : Copies} {object : ObjectId}
    (free : ¬ Barred region copies object) {place : Place}
    (known : copies[object]? = some place) : Settled region copies object := by
  refine ⟨place, known, ?_⟩
  intro closed
  cases here : place.region with
  | closed => rfl
  | opened => exact absurd ⟨closed, by rw [known, Option.map_some, here]⟩ free

namespace Laying

variable {live : Live} {screening : Screening} {region : Region} {before : Draft} {root : ObjectId}
  {old fresh : List Tile}

theorem start {copies : Copies} {seen : Seen} (tiling : Tiling before copies old)
    (known : ∀ object, seen.contains object = true → object ∈ copies) (walked : Nat) :
    Laying live region before root old [root] (Walk.start before copies seen walked) [] where
  tiling := by
    rw [List.append_nil]
    exact tiling
  grown := .refl before
  blank _ member := nomatch member
  inside _ member := nomatch member
  portrayed _ member := nomatch member
  links := rfl
  seen := known
  pending target asked := by
    rcases asked with rfl | ⟨_, member, _⟩
    · exact .inl List.mem_cons_self
    · cases member

/-- The objects of a stack stay awaited when the first of them is settled. -/
private theorem pending_tail (added : List ObjectId) {copies later : Copies}
    {object target : ObjectId} {rest : List ObjectId}
    (awaited : target ∈ object :: rest ∨ Settled region copies target)
    (settled : Settled region later object)
    (keeps : Settled region copies target → Settled region later target) :
    target ∈ added ++ rest ∨ Settled region later target := by
  rcases awaited with listed | known
  · rcases List.mem_cons.mp listed with rfl | behind
    · exact .inr settled
    · exact .inl (List.mem_append_right added behind)
  · exact .inr (keeps known)

theorem step {stack middle : List ObjectId} {walk later : Walk}
    (step : Step live screening region stack walk middle later)
    (laying : Laying live region before root old stack walk fresh) :
    ∃ fresh, Laying live region before root old middle later fresh := by
  cases step with
  | again found free old =>
    obtain ⟨place, known⟩ := mem_copies_iff.mp (laying.seen _ old)
    refine ⟨fresh, { laying with pending := fun target asked => ?_ }⟩
    exact pending_tail [] (laying.pending target asked) (settled_of_free free known) id
  | cached found free unseen fit known =>
    refine ⟨fresh, { laying with seen := ?_, pending := ?_ }⟩
    · intro other member
      rcases contains_meet.mp member with rfl | before
      · exact mem_copies_iff.mpr ⟨_, known⟩
      · exact laying.seen other before
    · intro target asked
      exact pending_tail _ (laying.pending target asked) (settled_of_free free known) id
  | @laid object seen rest _ place draft found free unseen fit uncached laid =>
    obtain ⟨tile, owner, here, name, slots, at_, tiling, grown, blank⟩ :=
      laying.tiling.lay laid uncached
    have settled : Settled region (walk.copies.insert object place) object :=
      ⟨place, Std.ExtTreeMap.getElem?_insert_self, fun _ => by
        rw [at_]
        exact here.trans ‹_›⟩
    refine ⟨fresh ++ [tile], ?_⟩
    constructor
    · rw [← List.append_assoc]
      exact tiling
    · exact laying.grown.trans grown
    · intro other member
      rcases List.mem_append.mp member with present | last
      · exact grown.shows (laying.blank other present)
      · rw [List.mem_singleton.mp last]
        exact blank
    · intro other member
      rcases List.mem_append.mp member with present | last
      · exact laying.inside other present
      · rw [List.mem_singleton.mp last]
        exact here
    · intro other member
      rcases List.mem_append.mp member with present | last
      · exact laying.portrayed other present
      · rw [List.mem_singleton.mp last, owner]
        exact ⟨seen, found, name, slots⟩
    · have place : tile.place before = place := by
        rw [at_, (laying.grown.trans grown).place]
      simp [copy, list, meet, laying.links, place, slots]
    · intro other member
      show other ∈ walk.copies.insert object place
      rw [Std.ExtTreeMap.mem_insert, Std.LawfulEqOrd.compare_eq_iff_eq]
      exact (contains_meet.mp member).imp id (laying.seen other)
    · intro target asked
      have keeps (settled : Settled region walk.copies target) := settled.insert uncached place
      rcases asked with first | ⟨other, member, refers⟩
      · exact pending_tail _ (laying.pending target (.inl first)) settled keeps
      · rcases List.mem_append.mp member with present | last
        · exact pending_tail _ (laying.pending target (.inr ⟨other, present, refers⟩)) settled keeps
        · rw [List.mem_singleton.mp last, slots] at refers
          exact .inl (List.mem_append_left rest (mem_targetsOf.mpr refers))

theorem runs {stack last : List ObjectId} {walk final : Walk}
    (runs : Runs live screening region stack walk last final)
    (laying : ∃ fresh, Laying live region before root old stack walk fresh) :
    ∃ fresh, Laying live region before root old last final fresh :=
  runs.preserves (fun stack walk => ∃ fresh, Laying live region before root old stack walk fresh)
    (fun _ _ _ _ step ⟨_, laying⟩ => laying.step step) laying

end Laying
end Walk
end FrozenHeap
