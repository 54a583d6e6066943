import FrozenHeap.Proofs.Matching.Screening
import FrozenHeap.Proofs.Recording.Simulation

namespace FrozenHeap

private theorem Draft.layOut_eq {twin : ObjectId → ObjectId → Prop} {slots others : Array Slot}
    (alike : List.Forall₂ (Slot.Alike twin) slots.toList others.toList) (image : Image)
    (classIndex : Nat) : layOut image classIndex slots = layOut image classIndex others := by
  have size : slots.size = others.size := by simpa using alike.length_eq
  have words : slots.map Slot.word = others.map Slot.word := by
    apply Array.toList_inj.mp
    rw [Array.toList_map, Array.toList_map]
    refine map_eq_of_forall₂ alike fun one two here => ?_
    cases here <;> rfl
  simp only [layOut, size, words]
  congr 1
  refine List.rel_foldl (P := Eq) ?_ rfl (forall₂_zipIdx alike 0)
  rintro marks _ rfl ⟨one, index⟩ ⟨two, _⟩ ⟨here, rfl⟩
  cases here <;> rfl

private theorem Draft.allocate_congr {twin : ObjectId → ObjectId → Prop} {slots others : Array Slot}
    (alike : List.Forall₂ (Slot.Alike twin) slots.toList others.toList) (draft : Draft)
    (region : Region) (name : String) :
    draft.allocate region name slots = draft.allocate region name others := by
  have size : slots.size = others.size := by simpa using alike.length_eq
  simp only [allocate, size, layOut_eq alike]

/-- The same name of a class, and kin. -/
def Live.ListedAlike (left right : Live) (listed other : ClassId × String) : Prop :=
  left.Kin right listed.1 other.1 ∧ listed.2 = other.2

namespace Matching

variable {left right : Live} (pairs : Matching left right)

/-- The same slot of the same copy, which is to refer to the copies of twins. -/
def Links (link other : Link) : Prop :=
  link.holder = other.holder ∧ link.slot = other.slot ∧ pairs.twin link.target other.target

/-- Walks that laid out the same, and know the same of twins. -/
structure Walks (walk other : Walk) : Prop where
  draft : walk.draft = other.draft
  copies : pairs.Tables (walk.copies[·]?) (other.copies[·]?)
  seen : pairs.Sets walk.seen.contains other.seen.contains
  walked : walk.walked = other.walked
  copied : List.Forall₂ pairs.twin walk.copied.toList other.copied.toList
  met : List.Forall₂ pairs.twin walk.met.toList other.met.toList
  classes : List.Forall₂ (left.ListedAlike right) walk.classes.toList other.classes.toList
  links : List.Forall₂ pairs.Links walk.links.toList other.links.toList

variable {pairs} {one two : ObjectId}

private theorem linksOf_alike {slots others : Array Slot}
    (alike : List.Forall₂ (Slot.Alike pairs.twin) slots.toList others.toList) (holder : Place) :
    List.Forall₂ pairs.Links (linksOf holder slots) (linksOf holder others) := by
  refine List.rel_filterMap ?_ (forall₂_zipIdx alike 0)
  rintro ⟨one, index⟩ ⟨two, _⟩ ⟨here, rfl⟩
  cases here with
  | bits => exact .none
  | null => exact .none
  | ref twins => exact .some ⟨rfl, rfl, twins⟩

theorem Tables.insert {copies others : Copies}
    (same : pairs.Tables (copies[·]?) (others[·]?)) (twins : pairs.twin one two) (place : Place) :
    pairs.Tables ((copies.insert one place)[·]?) ((others.insert two place)[·]?) := by
  intro last final here
  have met := compare_eq twins here
  simp only [beq_eq_beq] at met
  simp only [Std.ExtTreeMap.getElem?_insert, met, same last final here]

theorem Tables.erase {copies others : Copies}
    (same : pairs.Tables (copies[·]?) (others[·]?)) (twins : pairs.twin one two) :
    pairs.Tables ((copies.erase one)[·]?) ((others.erase two)[·]?) := by
  intro last final here
  have met := compare_eq twins here
  simp only [beq_eq_beq] at met
  simp only [Std.ExtTreeMap.getElem?_erase, met, same last final here]

private theorem kin_of_portraits {former latter : Portrait}
    (found : left.portrait? one = some former)
    (there : right.portrait? two = some latter) (shapes : former.shape = latter.shape) :
    left.Kin right former.ofClass latter.ofClass := by
  obtain ⟨loaded, first, here⟩ := Live.shape_of_portrait? found
  obtain ⟨other, second, same⟩ := Live.shape_of_portrait? there
  exact ⟨loaded, other, first, second, (here.trans shapes).trans same.symm⟩

namespace Walks

variable {walk other : Walk} {screening another : Screening} {region : Region}

theorem meet (walks : pairs.Walks walk other) (twins : pairs.twin one two) :
    pairs.Walks (walk.meet one) (other.meet two) :=
  { walks with
    seen := fun last final here => by
      simp only [Walk.meet, Std.ExtTreeSet.contains_insert, compare_eq twins here,
        walks.seen last final here]
    walked := congrArg (· + 1) walks.walked
    met := by
      simp only [Walk.meet, Array.toList_push]
      exact List.rel_append walks.met (.cons twins .nil) }

theorem list (walks : pairs.Walks walk other) {listed another : ClassId × String}
    (kin : left.ListedAlike right listed another) :
    pairs.Walks (walk.list listed) (other.list another) :=
  { walks with
    classes := by
      simp only [Walk.list, Array.toList_push]
      exact List.rel_append walks.classes (.cons kin .nil) }

theorem copy (walks : pairs.Walks walk other) (twins : pairs.twin one two)
    {slots others : Array Slot}
    (alike : List.Forall₂ (Slot.Alike pairs.twin) slots.toList others.toList) (draft : Draft)
    (place : Place) :
    pairs.Walks (walk.copy draft one place slots) (other.copy draft two place others) :=
  { walks with
    draft := rfl
    copies := walks.copies.insert twins place
    copied := by
      simp only [Walk.copy, Array.toList_push]
      exact List.rel_append walks.copied (.cons twins .nil)
    links := by
      simp only [Walk.copy, Array.toList_appendList]
      exact List.rel_append walks.links (linksOf_alike alike place) }

theorem simulation (same : pairs.Screenings screening another) (region : Region) :
    Walk.Simulation left right screening another region pairs.twin pairs.Walks where
  portraits twins := by
    obtain ⟨inside, within, shapes, kin, alike⟩ := pairs.exists_portraits twins
    rw [Live.portrait?_eq_some inside, Live.portrait?_eq_some within]
    exact .some ⟨shapes, by rw [shapes]; exact same.admits kin _, targetsOf_alike alike⟩
  copies walks twins := walks.copies _ _ twins
  seen walks twins := walks.seen _ _ twins
  meet walks twins := walks.meet twins
  list walks twins found there := by
    obtain ⟨_, _, first, second, shapes, _⟩ := pairs.portraits _ _ twins
    cases found.symm.trans first
    cases there.symm.trans second
    exact walks.list ⟨kin_of_portraits found there shapes, congrArg (·.name) shapes⟩
  lay {walk second one two former latter} walks twins found there _ := by
    obtain ⟨_, _, first, also, shapes, alike⟩ := pairs.portraits _ _ twins
    cases found.symm.trans first
    cases there.symm.trans also
    rw [walks.draft, shapes, Draft.allocate_congr alike]
    cases second.draft.allocate region latter.shape.name latter.slots with
    | error breach => exact .broken
    | ok laid =>
      obtain ⟨outcome, draft⟩ := laid
      cases outcome with
      | error failure => exact .ok ⟨rfl, { walks with draft := rfl }⟩
      | ok place => exact .ok ⟨rfl, walks.copy twins alike draft place⟩

theorem patchLinks_eq {copies others : Copies} (same : pairs.Tables (copies[·]?) (others[·]?))
    {links fellows : List Link} (linked : List.Forall₂ pairs.Links links fellows) (draft : Draft) :
    Walk.patchLinks copies draft links = Walk.patchLinks others draft fellows := by
  refine Parallel.eq (Parallel.foldlM ?_ linked rfl)
  rintro draft _ link fellow rfl ⟨holder, slot, twins⟩
  rw [show copies[link.target]? = others[fellow.target]? from same _ _ twins, holder, slot]
  exact .refl

end Walks
end Matching
end FrozenHeap
