import FrozenHeap.Dump
import FrozenHeap.Proofs.RecordTable.Blocks
import Mathlib.Data.List.Sigma

namespace FrozenHeap

private theorem map_filterMap_sublist {pick : α → Option β} {after : β → γ} {before : α → γ}
    (same : ∀ item picked, pick item = some picked → after picked = before item)
    (items : List α) : List.Sublist ((items.filterMap pick).map after) (items.map before) := by
  induction items with
  | nil => exact .slnil
  | cons head rest ih =>
    rw [List.map_cons]
    cases found : pick head with
    | none =>
      rw [List.filterMap_cons_none found]
      exact ih.cons _
    | some picked =>
      rw [List.filterMap_cons_some found, List.map_cons, same head picked found]
      exact ih.cons_cons _

namespace Dump

variable {dump : Dump} {region : Region} {ofClass : ClassId} {index : Nat}
  {group : ClassId × List Nat}

/-- A nomination for a region stands for a field of a class that is not archived whole. -/
def Grants (dump : Dump) (region : Region) (ofClass : ClassId) (index : Nat) : Prop :=
  ∃ nomination offset, dump.nominations[index]? = some nomination ∧
    nomination.resolved = some (ofClass, offset) ∧ nomination.region = region ∧
    ofClass ∉ dump.wholes

theorem Grants.inj {other : Region} {otherClass : ClassId}
    (left : dump.Grants region ofClass index) (right : dump.Grants other otherClass index) :
    region = other ∧ ofClass = otherClass := by
  obtain ⟨nomination, _, found, resolved, here, _⟩ := left
  obtain ⟨_, _, again, same, there, _⟩ := right
  rw [found] at again
  cases again
  rw [resolved] at same
  cases same
  exact ⟨here.symm.trans there, rfl⟩

/-- What the groups for a region are made of. -/
def listed (dump : Dump) (region : Region) : List (ClassId × Nat) :=
  dump.nominations.toList.zipIdx.filterMap fun (nomination, index) =>
    match nomination.resolved with
    | some (ofClass, _) =>
      if nomination.region = region ∧ ofClass ∉ dump.wholes then some (ofClass, index) else none
    | none => none

theorem groupsOf_eq (dump : Dump) (region : Region) : dump.groupsOf region =
    ((dump.listed region).map (·.1)).eraseDups.map fun ofClass =>
      (ofClass, ((dump.listed region).filter (·.1 == ofClass)).map (·.2)) := rfl

private theorem mem_listed : (ofClass, index) ∈ dump.listed region ↔
    dump.Grants region ofClass index := by
  rw [listed, List.mem_filterMap]
  constructor
  · rintro ⟨⟨nomination, position⟩, numbered, kept⟩
    have here := List.mem_zipIdx_iff_getElem?.mp numbered
    rw [Array.getElem?_toList] at here
    simp only at kept
    split at kept
    · rename_i owner offset resolved
      split at kept
      · rename_i fits
        cases kept
        exact ⟨nomination, offset, here, resolved, fits⟩
      · cases kept
    · cases kept
  · rintro ⟨nomination, offset, here, resolved, fits⟩
    refine ⟨(nomination, index), List.mem_zipIdx_iff_getElem?.mpr ?_, ?_⟩
    · rw [Array.getElem?_toList]
      exact here
    · simp only [resolved, if_pos fits]

private theorem nodup_listed (dump : Dump) (region : Region) :
    ((dump.listed region).map (·.2)).Nodup := by
  refine List.Nodup.sublist ?_ (List.nodup_zipIdx_map_snd dump.nominations.toList)
  refine map_filterMap_sublist ?_ _
  rintro ⟨nomination, position⟩ picked kept
  simp only at kept
  split at kept
  · split at kept
    · cases kept
      rfl
    · cases kept
  · cases kept

/-- A group holds the nominations of its class for its region. -/
theorem mem_group (member : group ∈ dump.groupsOf region) :
    index ∈ group.2 ↔ dump.Grants region group.1 index := by
  rw [groupsOf_eq] at member
  obtain ⟨ofClass, _, rfl⟩ := List.mem_map.mp member
  rw [← mem_listed]
  simp

theorem exists_group (grants : dump.Grants region ofClass index) :
    ∃ group ∈ dump.groupsOf region, index ∈ group.2 := by
  have member := mem_listed.mpr grants
  have group : (ofClass, ((dump.listed region).filter (·.1 == ofClass)).map (·.2)) ∈
      dump.groupsOf region := by
    rw [groupsOf_eq, List.mem_map]
    exact ⟨ofClass, List.mem_eraseDups.mpr (List.mem_map_of_mem member), rfl⟩
  exact ⟨_, group, (mem_group group).mpr grants⟩

theorem exists_mem_group (member : group ∈ dump.groupsOf region) : ∃ index, index ∈ group.2 := by
  have owner := member
  rw [groupsOf_eq] at owner
  obtain ⟨ofClass, owned, rfl⟩ := List.mem_map.mp owner
  obtain ⟨⟨_, index⟩, listed, rfl⟩ := List.mem_map.mp (List.mem_eraseDups.mp owned)
  exact ⟨index, (mem_group member).mpr (mem_listed.mp listed)⟩

/-- Groups are not for classes that are archived whole. -/
theorem not_mem_wholes_of_mem_groups (member : group ∈ dump.groups) : group.1 ∉ dump.wholes := by
  obtain ⟨region, _, member⟩ := List.mem_flatMap.mp member
  obtain ⟨index, listed⟩ := exists_mem_group member
  obtain ⟨_, _, _, _, _, apart⟩ := (mem_group member).mp listed
  exact apart

private theorem nodup_groups (dump : Dump) : (dump.groups.flatMap (·.2)).Nodup := by
  rw [List.nodup_flatMap]
  constructor
  · intro group member
    obtain ⟨region, _, member⟩ := List.mem_flatMap.mp member
    rw [groupsOf_eq] at member
    obtain ⟨ofClass, _, rfl⟩ := List.mem_map.mp member
    exact (dump.nodup_listed region).sublist (List.filter_sublist.map _)
  · rw [groups, List.pairwise_flatMap]
    constructor
    · intro region _
      have classes : (dump.groupsOf region).Pairwise fun left right => left.1 ≠ right.1 := by
        rw [groupsOf_eq, List.pairwise_map]
        exact TableLayout.nodup_eraseDups _
      refine classes.imp_of_mem fun left right different index first second => ?_
      exact different (((mem_group left).mp first).inj ((mem_group right).mp second)).2
    · refine List.Pairwise.imp (R := (· ≠ ·)) ?_ (by decide)
      intro left right different first one second two index here there
      exact different (((mem_group one).mp here).inj ((mem_group two).mp there)).1

/-- A nomination is neither among those in front of it nor among those behind it. -/
theorem apart_of_split {front back : List (ClassId × List Nat)} {earlier later : List Nat}
    (split : dump.groups = front ++ group :: back) (listed : group.2 = earlier ++ index :: later) :
    index ∉ front.flatMap (·.2) ++ earlier ∧ index ∉ later ++ back.flatMap (·.2) := by
  have distinct := dump.nodup_groups
  rw [split, List.flatMap_append, List.flatMap_cons, listed, List.append_assoc,
    List.cons_append, ← List.append_assoc, List.nodup_middle, List.nodup_cons, List.mem_append,
    not_or] at distinct
  exact distinct.1

theorem split_unique {front back others more : List (ClassId × List Nat)} {earlier later : List Nat}
    {again : ClassId × List Nat} {before behind : List Nat}
    (left : dump.groups = front ++ group :: back) (here : group.2 = earlier ++ index :: later)
    (right : dump.groups = others ++ again :: more) (there : again.2 = before ++ index :: behind) :
    front = others ∧ group = again ∧ earlier = before := by
  obtain ⟨first, second⟩ := apart_of_split left here
  rw [List.mem_append, not_or] at first second
  have place : index ∈ again.2 := there ▸ List.mem_append_right _ List.mem_cons_self
  -- The other group holds the place, so it is neither in front of the group nor behind it.
  have ahead : again ∉ front := fun listed =>
    first.1 (List.mem_flatMap.mpr ⟨again, listed, place⟩)
  have behind : again ∉ back := fun listed =>
    second.2 (List.mem_flatMap.mpr ⟨again, listed, place⟩)
  have split := left.symm.trans right
  obtain ⟨fronts, rfl, _⟩ := (List.append_cons_inj_of_notMem ahead behind).mp split
  have indices := here.symm.trans there
  obtain ⟨same, _⟩ := (List.append_cons_inj_of_notMem first.2 second.1).mp indices
  exact ⟨fronts, rfl, same⟩

/-- The nominations in front of one for the closed region are for the closed region. -/
theorem closed_of_front {front back : List (ClassId × List Nat)}
    (split : dump.groups = front ++ group :: back) (listed : index ∈ group.2)
    (closed : dump.Grants .closed ofClass index) :
    group ∈ dump.groupsOf .closed ∧ ∀ other ∈ front, other ∈ dump.groupsOf .closed := by
  have parts : dump.groups = dump.groupsOf .closed ++ dump.groupsOf .opened := by
    simp [groups, Region.all]
  rw [parts] at split
  have apart : group ∉ dump.groupsOf .opened := by
    intro member
    have same := (closed.inj ((mem_group member).mp listed)).1
    cases same
  rcases List.append_eq_append_iff.mp split with ⟨_, _, opened⟩ | ⟨more, closed, rest⟩
  · exact absurd (opened ▸ List.mem_append_right _ List.mem_cons_self) apart
  · cases more with
    | nil =>
      rw [List.nil_append] at rest
      exact absurd (rest ▸ List.mem_cons_self) apart
    | cons head more =>
      cases rest
      rw [closed]
      exact ⟨List.mem_append_right _ List.mem_cons_self, fun _ => List.mem_append_left _⟩

end Dump
end FrozenHeap
