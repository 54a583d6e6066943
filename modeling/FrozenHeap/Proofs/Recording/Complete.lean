import FrozenHeap.Proofs.Live
import FrozenHeap.Proofs.Recording.Truthful
import FrozenHeap.Proofs.Recording.Visits

namespace FrozenHeap

namespace Live

variable {live : Live} {seen : Seen} {root object : ObjectId} {ofClass : ClassId}

/-- An object of this class is reachable from a root. -/
def LeadsTo (live : Live) (root : ObjectId) (ofClass : ClassId) : Prop :=
  ∃ object seen, live.Reaches root object ∧ live.portrait? object = some seen ∧
    seen.ofClass = ofClass

/-- What a seen object refers to is seen. -/
def Enclosed (live : Live) (seen : Seen) : Prop :=
  ∀ holder target, seen.contains holder = true → live.Refers holder target →
    seen.contains target = true

theorem Enclosed.visits (enclosed : live.Enclosed seen) (path : live.Reaches root object) :
    live.Visits seen root object ∨ seen.contains object = true := by
  induction path with
  | refl =>
    by_cases old : seen.contains root = true
    · exact .inr old
    · exact .inl (.root (Bool.eq_false_iff.mpr old))
  | @tail holder target _ edge ih =>
    by_cases old : seen.contains target = true
    · exact .inr old
    · rcases ih with visits | before
      · exact .inl (visits.next edge (Bool.eq_false_iff.mpr old))
      · exact absurd (enclosed holder target before edge) old

theorem classNamed?_of_portrait? {seen : Portrait} (found : live.portrait? object = some seen) :
    live.classNamed? seen.shape.name = some seen.ofClass := by
  obtain ⟨loaded, present, same⟩ := shape_of_portrait? found
  rw [← same]
  exact classNamed?_of_getElem? present

end Live

theorem Tiling.slot_eq_of_tells {draft : Draft} {copies : Copies} {tiles : List Tile}
    (tiling : Tiling draft copies tiles) {entry : Entry} {slot : Slot} {root : ObjectId}
    (leads : entry.Tells draft.narrowing copies (.ref root))
    (tells : entry.Tells draft.narrowing copies slot) : slot = .ref root := by
  obtain ⟨place, narrow, known, narrowed, same⟩ := leads
  obtain ⟨tile, member, rfl, rfl⟩ := (tiling.copied root place).mp known
  obtain ⟨_, again, live, wide, _⟩ := tiling.exists_narrow member
  cases narrowed.symm.trans again
  have value : entry.value = narrow.toUInt64 := congrArg Entry.value same
  cases slot with
  | bits word =>
    have kind := congrArg Entry.kind (same.symm.trans tells)
    cases kind
  | null =>
    obtain ⟨region, null⟩ := tells
    have zero := value.symm.trans (congrArg Entry.value null)
    exact absurd (UInt32.toUInt64_inj.mp zero) live
  | ref other =>
    obtain ⟨place, low, there, lowered, equal⟩ := tells
    obtain ⟨another, present, rfl, rfl⟩ := (tiling.copied other place).mp there
    obtain ⟨_, again, _, far, _⟩ := tiling.exists_narrow present
    cases lowered.symm.trans again
    cases UInt32.toUInt64_inj.mp (value.symm.trans (congrArg Entry.value equal))
    rw [tiling.eq_of_address member present (wide.symm.trans far)]

namespace Page

private theorem nodup_addClass {page : Page} (distinct : (page.classes.toList.map (·.1)).Nodup)
    (met : ClassId × String) : ((page.addClass met).classes.toList.map (·.1)).Nodup := by
  unfold addClass
  split
  · exact distinct
  · rename_i fresh
    rw [Array.toList_push, List.map_append]
    apply distinct.append (List.nodup_singleton _)
    intro ofClass old new
    rw [List.mem_singleton.mp new] at old
    exact fresh (hasClass_iff.mpr old)

private theorem nodup_foldl_addClass {met : List (ClassId × String)} {page : Page}
    (distinct : (page.classes.toList.map (·.1)).Nodup) :
    ((met.foldl (·.addClass ·) page).classes.toList.map (·.1)).Nodup := by
  induction met generalizing page with
  | nil => exact distinct
  | cons head rest ih => exact ih (nodup_addClass distinct head)

private theorem mem_classes_addClass {page : Page} {met pair : ClassId × String}
    (member : pair ∈ (page.addClass met).classes) : pair ∈ page.classes ∨ pair = met := by
  unfold addClass at member
  split at member
  · exact .inl member
  · exact Array.mem_push.mp member

theorem mem_classes_foldl_addClass {met : List (ClassId × String)} {page : Page}
    {pair : ClassId × String} (member : pair ∈ (met.foldl (·.addClass ·) page).classes) :
    pair ∈ page.classes ∨ pair ∈ met := by
  induction met generalizing page with
  | nil => exact .inl member
  | cons head rest ih =>
    rcases ih member with old | behind
    · rcases mem_classes_addClass old with before | rfl
      · exact .inl before
      · exact .inr List.mem_cons_self
    · exact .inr (List.mem_cons_of_mem _ behind)

/-- A page with the classes met behind a new entry, and the entry. -/
def record (page : Page) (met : List (ClassId × String)) (entry : Entry) : Page :=
  { met.foldl (·.addClass ·) page with
    entries := (met.foldl (·.addClass ·) page).entries.push entry }

theorem hasClass_record {page : Page} {met : List (ClassId × String)} {entry : Entry}
    {ofClass : ClassId} : (page.record met entry).hasClass ofClass = true ↔
      page.hasClass ofClass = true ∨ ofClass ∈ met.map (·.1) :=
  hasClass_foldl_addClass met page ofClass

private theorem mem_entries_record {page : Page} {met : List (ClassId × String)}
    {entry other : Entry} :
    other ∈ (page.record met entry).entries ↔ other ∈ page.entries ∨ other = entry := by
  rw [record, entries_foldl_addClass]
  exact Array.mem_push

/-- The classes on a page are those of the objects reachable from its entries. -/
structure Complete (live : Live) (narrowing : Narrowing) (copies : Copies) (page : Page) :
    Prop where
  named : ∀ met ∈ page.classes, live.classNamed? met.2 = some met.1
  distinct : (page.classes.toList.map (·.1)).Nodup
  told : ∀ entry ∈ page.entries, ∃ slot, entry.Tells narrowing copies slot
  listed : ∀ ofClass, page.hasClass ofClass = true ↔ ∃ entry ∈ page.entries, ∃ root,
    entry.Tells narrowing copies (.ref root) ∧ live.LeadsTo root ofClass

namespace Complete

variable {live : Live} {narrowing : Narrowing} {copies : Copies} {page : Page}

theorem blank (ofClass : ClassId) (name : String) (isPartial : Bool) :
    (Page.blank ofClass name isPartial).Complete live narrowing copies where
  named _ member := absurd member (Array.not_mem_empty _)
  distinct := List.nodup_nil
  told _ member := absurd member (Array.not_mem_empty _)
  listed ofClass := by simp [Page.blank, hasClass]

theorem markPartial (complete : page.Complete live narrowing copies) :
    page.markPartial.Complete live narrowing copies :=
  ⟨complete.named, complete.distinct, complete.told, complete.listed⟩

theorem nodup_names (complete : page.Complete live narrowing copies) :
    (page.classes.toList.map (·.2)).Nodup := by
  apply List.Nodup.of_map live.classNamed?
  have same : (page.classes.toList.map (·.2)).map live.classNamed? =
      (page.classes.toList.map (·.1)).map some := by
    rw [List.map_map, List.map_map]
    exact List.map_congr_left fun met member => complete.named met (Array.mem_toList_iff.mp member)
  rw [same]
  exact complete.distinct.map fun _ _ => Option.some.inj

theorem mem_names (complete : page.Complete live narrowing copies) {name : String} :
    name ∈ page.classes.toList.map (·.2) ↔
      ∃ ofClass, page.hasClass ofClass = true ∧ live.classNamed? name = some ofClass := by
  simp only [hasClass_iff, List.mem_map, Array.mem_toList_iff]
  constructor
  · rintro ⟨met, member, rfl⟩
    exact ⟨met.1, ⟨met, member, rfl⟩, complete.named met member⟩
  · rintro ⟨_, ⟨met, member, rfl⟩, named⟩
    exact ⟨met, member, Live.name_inj (complete.named met member) named⟩

/-- Entries go on to hold their values, and no others, when more objects are copied. -/
theorem grow {draft : Draft} {later : Copies} {tiles : List Tile}
    (complete : page.Complete live draft.narrowing copies) (tiling : Tiling draft later tiles)
    (grows : ∀ (object : ObjectId) (place : Place),
      copies[object]? = some place → later[object]? = some place) :
    page.Complete live draft.narrowing later := by
  have kept {entry : Entry} {slot : Slot} (tells : entry.Tells draft.narrowing copies slot) :
      entry.Tells draft.narrowing later slot := by
    cases slot with
    | bits _ => exact tells
    | null => exact tells
    | ref root =>
      obtain ⟨place, narrow, known, rest⟩ := tells
      exact ⟨place, narrow, grows root place known, rest⟩
  refine ⟨complete.named, complete.distinct, fun entry member => ?_, fun ofClass => ?_⟩
  · obtain ⟨slot, tells⟩ := complete.told entry member
    exact ⟨slot, kept tells⟩
  · rw [complete.listed]
    constructor
    · rintro ⟨entry, member, root, tells, leads⟩
      exact ⟨entry, member, root, kept tells, leads⟩
    · rintro ⟨entry, member, root, tells, leads⟩
      obtain ⟨slot, before⟩ := complete.told entry member
      obtain rfl := tiling.slot_eq_of_tells tells (kept before)
      exact ⟨entry, member, root, before, leads⟩

/-- The classes met behind a new entry complete its page, together with those that were listed. -/
theorem record {draft : Draft} {tiles : List Tile} {entry : Entry} {slot : Slot}
    {met : List (ClassId × String)} (complete : page.Complete live draft.narrowing copies)
    (tiling : Tiling draft copies tiles) (tells : entry.Tells draft.narrowing copies slot)
    (named : ∀ pair ∈ met, live.classNamed? pair.2 = some pair.1)
    (behind : ∀ ofClass, page.hasClass ofClass = true ∨ ofClass ∈ met.map (·.1) ↔
      page.hasClass ofClass = true ∨ ∃ root, slot = .ref root ∧ live.LeadsTo root ofClass) :
    (page.record met entry).Complete live draft.narrowing copies where
  named pair member := by
    rcases mem_classes_foldl_addClass member with old | new
    · exact complete.named pair old
    · exact named pair new
  distinct := nodup_foldl_addClass complete.distinct
  told other member := by
    rcases mem_entries_record.mp member with old | rfl
    · exact complete.told other old
    · exact ⟨slot, tells⟩
  listed ofClass := by
    rw [hasClass_record, behind, complete.listed]
    simp only [mem_entries_record]
    constructor
    · rintro (⟨other, old, holds⟩ | ⟨root, rfl, leads⟩)
      · exact ⟨other, .inl old, holds⟩
      · exact ⟨entry, .inr rfl, root, tells, leads⟩
    · rintro ⟨other, old | rfl, root, holds, leads⟩
      · exact .inl ⟨other, old, root, holds, leads⟩
      · exact .inr ⟨root, tiling.slot_eq_of_tells holds tells, leads⟩

end Complete
end Page

end FrozenHeap
